/-
  The rankings of the handlers.

  * `mergeSort_of_mem`: a merge sort, if the comparison is an order on the items;
  * `RankOrder`: a stable ordering with the rows without a value last;
  * `sortedRows_eq`: where the code sorts that way;
  * `ranks_iff`: when a ranking is the beginning of such an ordering.
-/
import TracciaRuntime.Proof.RowJoins
import Mathlib.Algebra.Order.Ring.Unbundled.Rat

namespace TracciaRuntime.Analytics

open Py

variable {V F : Type} {c : Cells V F}

/-! ## Sorting -/

section
variable {α : Type} {le le' : α → α → Bool} {l : List α}

/-- A merge sort is sorted and stable if the comparison is an order on the items. -/
theorem mergeSort_of_mem
    (trans : ∀ a ∈ l, ∀ b ∈ l, ∀ d ∈ l, le a b = true → le b d = true → le a d = true)
    (total : ∀ a ∈ l, ∀ b ∈ l, (le a b || le b a) = true) :
    (l.mergeSort le).Pairwise (fun a b => le a b = true) ∧
      ∀ s : List α, s.Sublist l → s.Pairwise (fun a b => le a b = true) → s.Sublist (l.mergeSort le) := by
  let leMem (a b : { a // a ∈ l }) : Bool := le a.1 b.1
  have hmap : (l.attach.mergeSort leMem).map Subtype.val = l.mergeSort le := by
    rw [List.map_mergeSort (s := le) fun _ _ _ _ => rfl, List.attach_map_subtype_val]
  have htrans : ∀ a b d, leMem a b = true → leMem b d = true → leMem a d = true :=
    fun a b d => trans a.1 a.2 b.1 b.2 d.1 d.2
  have htotal : ∀ a b, (leMem a b || leMem b a) = true := fun a b => total a.1 a.2 b.1 b.2
  rw [← hmap]
  constructor
  · rw [List.pairwise_map]
    exact List.pairwise_mergeSort htrans htotal _
  · intro s hs hsorted
    rw [← List.attach_map_subtype_val l, List.sublist_map_iff] at hs
    obtain ⟨s', hs', rfl⟩ := hs
    rw [List.pairwise_map] at hsorted
    exact (List.sublist_mergeSort htrans htotal hsorted hs').map _

theorem mergeSort_congr (h : ∀ a ∈ l, ∀ b ∈ l, le a b = le' a b) :
    l.mergeSort le = l.mergeSort le' := by
  have hmap := List.map_mergeSort (f := id) h
  rwa [List.map_id, List.map_id] at hmap

end

/-! ## The ordering -/

/-- The values are mutually comparable: `<` is a strict weak order on them. -/
structure Comparable (c : Cells V F) (values : List V) : Prop where
  asymm : ∀ x ∈ values, ∀ y ∈ values, c.before x y = true → c.before y x = false
  trans : ∀ x ∈ values, ∀ y ∈ values, ∀ z ∈ values, c.before x z = true →
    c.before x y = true ∨ c.before y z = true

/-- The present values of a field. -/
def valuesOf (field : String) (rows : List (Row V)) : List V := rows.filterMap (·.get field)

/-- The first row may come before the second one: in the requested direction, and any row before
    those that lack the field. -/
def precedes (c : Cells V F) (field : String) (descending : Bool) (r r' : Row V) : Bool :=
  match r.get field, r'.get field with
  | some x, some y => !if descending then c.before x y else c.before y x
  | none, some _ => false
  | _, none => true

/-- Neither row belongs before the other. -/
def Tied (c : Cells V F) (field : String) (r r' : Row V) : Prop :=
  match r.get field, r'.get field with
  | some x, some y => c.before x y = false ∧ c.before y x = false
  | none, none => True
  | _, _ => False

/-- A stable ordering of the rows by the field, with those that lack it last. -/
structure RankOrder (c : Cells V F) (field : String) (descending : Bool)
    (rows ordered : List (Row V)) : Prop where
  perm : ordered.Perm rows
  sorted : ordered.Pairwise fun r r' => precedes c field descending r r' = true
  stable : ∀ s : List (Row V), s.Sublist rows → s.Pairwise (Tied c field) → s.Sublist ordered

section
variable {field : String} {descending : Bool} {rows ordered : List (Row V)}

theorem mem_valuesOf {r : Row V} {x : V} (hr : r ∈ rows) (hx : r.get field = some x) :
    x ∈ valuesOf field rows :=
  List.mem_filterMap.2 ⟨r, hr, hx⟩

theorem precedes_trans (h : Comparable c (valuesOf field rows)) :
    ∀ a ∈ rows, ∀ b ∈ rows, ∀ d ∈ rows, precedes c field descending a b = true →
      precedes c field descending b d = true → precedes c field descending a d = true := by
  intro a ha b hb d hd hab hbd
  unfold precedes at *
  cases hx : a.get field with
  | none => cases hy : b.get field <;> cases hz : d.get field <;> simp_all
  | some x =>
    cases hy : b.get field with
    | none => cases hz : d.get field <;> simp_all
    | some y =>
      cases hz : d.get field with
      | none => rfl
      | some z =>
        have hx' := mem_valuesOf ha hx
        have hy' := mem_valuesOf hb hy
        have hz' := mem_valuesOf hd hz
        rw [hx, hy] at hab
        rw [hy, hz] at hbd
        cases descending with
        | true =>
          have := h.trans x hx' y hy' z hz'
          simp_all
        | false =>
          have := h.trans z hz' y hy' x hx'
          simp_all

theorem precedes_total (h : Comparable c (valuesOf field rows)) :
    ∀ a ∈ rows, ∀ b ∈ rows,
      (precedes c field descending a b || precedes c field descending b a) = true := by
  intro a ha b hb
  unfold precedes
  cases hx : a.get field with
  | none => cases hy : b.get field <;> rfl
  | some x =>
    cases hy : b.get field with
    | none => rfl
    | some y =>
      have hxy := h.asymm x (mem_valuesOf ha hx) y (mem_valuesOf hb hy)
      have hyx := h.asymm y (mem_valuesOf hb hy) x (mem_valuesOf ha hx)
      cases descending <;> cases hb : c.before x y <;> simp_all

theorem precedes_of_tied {r r' : Row V} (h : Tied c field r r') :
    precedes c field descending r r' = true := by
  unfold Tied at h
  unfold precedes
  cases hx : r.get field with
  | none =>
    rw [hx] at h
    cases hy : r'.get field with
    | none => rfl
    | some y => rw [hy] at h; exact h.elim
  | some x =>
    rw [hx] at h
    cases hy : r'.get field with
    | none => rfl
    | some y =>
      rw [hy] at h
      cases descending with
      | true => simp [h.1]
      | false => simp [h.2]

/-- The reference ordering. -/
theorem rankOrder_mergeSort (h : Comparable c (valuesOf field rows)) :
    RankOrder c field descending rows (rows.mergeSort (precedes c field descending)) := by
  have htotal : ∀ r ∈ rows, ∀ r' ∈ rows,
      (precedes c field descending r r' || precedes c field descending r' r) = true :=
    precedes_total h
  obtain ⟨hsorted, hstable⟩ := mergeSort_of_mem (precedes_trans h) htotal
  exact ⟨List.mergeSort_perm _ _, hsorted,
    fun s hs ht => hstable s hs (ht.imp precedes_of_tied)⟩

/-! ## The code -/

/-- The key of the code puts the rows without the field last, downwards. -/
theorem not_rankLess (r r' : Row V) : (!rankLess c field r r') = precedes c field true r r' := by
  unfold rankLess precedes
  cases r.get field <;> cases r'.get field <;> rfl

/-- **The code sorts by that ordering** downwards, and upwards if all rows have the field or none
    has. -/
theorem sortedRows_eq (h : descending = true ∨ (∀ r ∈ rows, (r.get field).isSome) ∨
    ∀ r ∈ rows, r.get field = none) :
    sortedRows c field descending rows = rows.mergeSort (precedes c field descending) := by
  refine mergeSort_congr fun a ha b hb => ?_
  rcases h with rfl | h | h
  · exact not_rankLess a b
  all_goals unfold rankLess precedes
  · have hx := h a ha
    have hy := h b hb
    revert hx hy
    cases a.get field <;> cases b.get field <;> cases descending <;> simp
  · rw [h a ha, h b hb]
    cases descending <;> rfl

/-- Upwards, the rows without the field come first. -/
theorem sortedRows_head (hc : Comparable c (valuesOf field rows)) {m head : Row V}
    {tail : List (Row V)} (hm : m ∈ rows) (hmissing : m.get field = none)
    (h : sortedRows c field false rows = head :: tail) : head.get field = none := by
  have hflip : sortedRows c field false rows =
      rows.mergeSort fun r r' => precedes c field true r' r :=
    mergeSort_congr fun a _ b _ => not_rankLess b a
  have htrans : ∀ a ∈ rows, ∀ b ∈ rows, ∀ d ∈ rows, precedes c field true b a = true →
      precedes c field true d b = true → precedes c field true d a = true :=
    fun a ha b hb d hd hab hbd => precedes_trans hc d hd b hb a ha hbd hab
  have hsorted := (mergeSort_of_mem htrans fun a ha b hb => precedes_total hc b hb a ha).1
  rw [← hflip, h] at hsorted
  have hmem : m ∈ head :: tail := by
    rw [← h, hflip, List.mem_mergeSort]
    exact hm
  rcases List.mem_cons.1 hmem with rfl | hmem
  · exact hmissing
  · have hp := (List.pairwise_cons.1 hsorted).1 m hmem
    unfold precedes at hp
    rw [hmissing] at hp
    cases hx : head.get field with
    | none => rfl
    | some x => rw [hx] at hp; cases hp

/-- The ordering starts with a row that has the field, if there is one. -/
theorem RankOrder.head_isSome {head p : Row V} {tail : List (Row V)}
    (h : RankOrder c field descending rows (head :: tail)) (hp : p ∈ rows)
    (hpresent : (p.get field).isSome) : (head.get field).isSome := by
  rcases List.mem_cons.1 (h.perm.mem_iff.2 hp) with rfl | hmem
  · exact hpresent
  · have hle := (List.pairwise_cons.1 h.sorted).1 p hmem
    unfold precedes at hle
    obtain ⟨x, hx⟩ := Option.isSome_iff_exists.1 hpresent
    rw [hx] at hle
    cases hy : head.get field with
    | none => rw [hy] at hle; cases hle
    | some y => rfl

end

/-- **A ranking**: the first rows of such an ordering, with their ranks. -/
def Ranks (c : Cells V F) (configuration : RankConfiguration) (rows : List (Row V)) : Prop :=
  ∃ ordered, RankOrder c configuration.field configuration.descending rows ordered ∧
    ranked c configuration rows = ordered.take configuration.limit.toNat ∧
    rankResults c configuration (some rows) =
      .ok (withRanks c (ordered.take configuration.limit.toNat))

section
variable {configuration : RankConfiguration} {rows : List (Row V)}

theorem ranked_eq (hlimit : 0 ≤ configuration.limit) : ranked c configuration rows =
    (sortedRows c configuration.field configuration.descending rows).take
      configuration.limit.toNat := by
  rw [ranked, firstRows, if_pos hlimit]

/-- Upwards, a row without the field is ranked before one that has it. -/
theorem not_ranks (hc : Comparable c (valuesOf configuration.field rows))
    (hlimit : 0 < configuration.limit) (hascending : configuration.descending = false)
    {m p : Row V} (hm : m ∈ rows) (hmissing : m.get configuration.field = none) (hp : p ∈ rows)
    (hpresent : (p.get configuration.field).isSome) : ¬Ranks c configuration rows := by
  rintro ⟨ordered, ho, htake, -⟩
  rw [ranked_eq hlimit.le, hascending] at htake
  obtain ⟨n, hn⟩ := Nat.exists_eq_succ_of_ne_zero (n := configuration.limit.toNat) (by omega)
  -- the two lists begin with the same row
  cases hs : sortedRows c configuration.field false rows with
  | nil =>
    have hmem : m ∈ sortedRows c configuration.field false rows := List.mem_mergeSort.2 hm
    rw [hs] at hmem
    cases hmem
  | cons head tail =>
    cases ordered with
    | nil =>
      have hmem := ho.perm.mem_iff.2 hm
      cases hmem
    | cons head' tail' =>
      rw [hs, hn, List.take_succ_cons, List.take_succ_cons] at htake
      have hsome := ho.head_isSome hp hpresent
      rw [← (List.cons.inj htake).1, sortedRows_head hc hm hmissing hs] at hsome
      cases hsome

end

/-- **When a ranking is as requested**: downwards; and upwards if it is empty, or all rows have
    the field, or none has. -/
theorem ranks_iff (configuration : RankConfiguration) (rows : List (Row V))
    (hlimit : 0 ≤ configuration.limit) (hc : Comparable c (valuesOf configuration.field rows)) :
    Ranks c configuration rows ↔ configuration.descending = true ∨ configuration.limit = 0 ∨
      (∀ r ∈ rows, (r.get configuration.field).isSome) ∨
      ∀ r ∈ rows, r.get configuration.field = none := by
  constructor
  · intro h
    by_contra hn
    simp only [not_or, not_forall, exists_prop, Bool.not_eq_true, Option.isSome_eq_false_iff,
      Option.isNone_iff_eq_none] at hn
    obtain ⟨hascending, hpos, ⟨m, hm, hmissing⟩, p, hp, hpresent⟩ := hn
    exact not_ranks hc (lt_of_le_of_ne hlimit (Ne.symm hpos)) hascending hm hmissing hp
      (Option.isSome_iff_ne_none.2 hpresent) h
  · intro h
    refine ⟨rows.mergeSort (precedes c configuration.field configuration.descending),
      rankOrder_mergeSort hc, ?_⟩
    have htake : ranked c configuration rows = (rows.mergeSort
        (precedes c configuration.field configuration.descending)).take
          configuration.limit.toNat := by
      rw [ranked_eq hlimit]
      rcases h with h | h | h | h
      · rw [sortedRows_eq (.inl h)]
      · rw [h]
        rfl
      · rw [sortedRows_eq (.inr (.inl h))]
      · rw [sortedRows_eq (.inr (.inr h))]
    exact ⟨htake, by rw [rankResults, htake]; rfl⟩

theorem comparable_numbers (l : List ℚ) : Comparable Sample.numbers l := by
  have hbefore : ∀ x y : ℚ, Sample.numbers.before x y = true ↔ x < y := by
    intro x y
    simp only [Cells.before, Sample.numbers, Bool.and_eq_true, Bool.not_eq_true',
      decide_eq_false_iff_not, decide_eq_true_eq]
    exact ⟨And.right, fun h => ⟨h.ne, h⟩⟩
  refine ⟨fun x _ y _ h => ?_, fun x _ y _ z _ h => ?_⟩
  · rw [Bool.eq_false_iff, Ne, hbefore]
    exact not_lt_of_gt ((hbefore x y).1 h)
  · rw [hbefore] at h
    rw [hbefore, hbefore]
    rcases lt_or_ge x y with hxy | hyx
    · exact .inl hxy
    · exact .inr (lt_of_le_of_lt hyx h)

theorem ranks_iff_sample : Ranks Sample.numbers { field := "revenue" }
      (Sample.revenue [(1, 10), (2, 20)]) ↔ true = true ∨ (10 : Int) = 0 ∨
      (∀ r ∈ Sample.revenue [(1, 10), (2, 20)], (r.get "revenue").isSome) ∨
      ∀ r ∈ Sample.revenue [(1, 10), (2, 20)], r.get "revenue" = none :=
  ranks_iff { field := "revenue" } _ (by decide) (comparable_numbers _)

/-- Upwards, the route without revenue is the first one. -/
theorem missing_first : ¬Ranks Sample.numbers { field := "revenue", descending := false }
    [Sample.rowOf [("route", 1), ("revenue", 10)], Sample.rowOf [("route", 2)]] :=
  not_ranks (comparable_numbers _) (by decide) rfl (List.mem_cons_of_mem _ List.mem_cons_self) rfl
    List.mem_cons_self rfl

end TracciaRuntime.Analytics
