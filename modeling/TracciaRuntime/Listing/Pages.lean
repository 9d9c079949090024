/-
  Listings in pages, with a timestamp as the cursor.

  * `Page`: a page is the beginning of what is before the cursor; items with the same timestamp
    may change places from one query to the next;
  * `Follows`: a client that goes on before the oldest item of the page, until a page is empty;
  * `Apart`: an item of a later page is older than every item of an earlier one;
  * `exists_follows`: the client comes to an empty page; `enumerates_iff`: exactly if the items
    are apart, it has then got every item once.
-/
import Mathlib.Data.List.MinMax

namespace Listing

variable {α T : Type} [LinearOrder T] {ts : α → T} {n : Nat} {items : List α} {cursor : Option T}

/-- What is before the cursor. -/
def before (ts : α → T) (cursor : Option T) (items : List α) : List α :=
  items.filter fun x => cursor.all fun t => ts x < t

/-- A page of at most `n` items before the cursor. -/
def Page (ts : α → T) (n : Nat) (items : List α) (cursor : Option T) (page : List α) : Prop :=
  ∃ l : List α, l.Perm (before ts cursor items) ∧ l.map ts = (before ts cursor items).map ts ∧
    page.Perm (l.take n)

/-- The timestamp of the oldest item of a page. -/
def Oldest (ts : α → T) (page : List α) (t : T) : Prop :=
  (∃ x ∈ page, ts x = t) ∧ ∀ x ∈ page, t ≤ ts x

/-- The pages that a client gets from a cursor on; at an empty page it stops. -/
inductive Follows (P : Option T → List α → Prop) (ts : α → T) : Option T → List (List α) → Prop
  | done {cursor : Option T} : P cursor [] → Follows P ts cursor []
  | next {cursor : Option T} {t : T} {page : List α} {pages : List (List α)} :
    P cursor page → page ≠ [] → Oldest ts page t → Follows P ts (some t) pages →
    Follows P ts cursor (page :: pages)

/-- The times on a later page are before those on an earlier page. -/
def Apart (n : Nat) (times : List T) : Prop :=
  ∀ i j (hi : i < times.length) (hj : j < times.length), i / n < j / n → times[j] < times[i]

instance (times : List T) : Decidable (Apart n times) :=
  decidable_of_iff (∀ i (hi : i < times.length) j (hj : j < times.length),
    i / n < j / n → times[j] < times[i])
    ⟨fun h i j hi hj => h i hi j hj, fun h i hi j hj => h i j hi hj⟩

/-! ## Pages -/

theorem apart_iff (hn : 0 < n) {times : List T} : Apart n times ↔
    (∀ x ∈ times.take n, ∀ y ∈ times.drop n, y < x) ∧ Apart n (times.drop n) := by
  have hshift : ∀ i, (n + i) / n = i / n + 1 := fun i => Nat.add_div_left i hn
  constructor
  · intro h
    refine ⟨fun x hx y hy => ?_, fun i j hi hj hij => ?_⟩
    · obtain ⟨i, hi, rfl⟩ := List.mem_take_iff_getElem.1 hx
      obtain ⟨j, hj, rfl⟩ := List.mem_drop_iff_getElem.1 hy
      refine h i (n + j) (by omega) (by omega) ?_
      rw [hshift, Nat.div_eq_of_lt (by omega)]
      exact Nat.succ_pos _
    · rw [List.length_drop] at hi hj
      rw [List.getElem_drop, List.getElem_drop]
      refine h _ _ (by omega) (by omega) ?_
      rw [hshift, hshift]
      exact Nat.add_lt_add_right hij 1
  · rintro ⟨hfirst, hrest⟩ i j hi hj hij
    have hnj : n ≤ j := by
      by_contra hlt
      rw [Nat.div_eq_of_lt (Nat.not_le.1 hlt)] at hij
      exact absurd hij (Nat.not_lt_zero _)
    obtain ⟨j, rfl⟩ := Nat.exists_eq_add_of_le hnj
    rcases Nat.lt_or_ge i n with hni | hni
    · exact hfirst _ (List.mem_take_iff_getElem.2 ⟨i, by omega, rfl⟩) _
        (List.mem_drop_iff_getElem.2 ⟨j, by omega, rfl⟩)
    · obtain ⟨i, rfl⟩ := Nat.exists_eq_add_of_le hni
      have := hrest i j (by rw [List.length_drop]; omega) (by rw [List.length_drop]; omega)
        (by rw [hshift, hshift] at hij; exact Nat.lt_of_add_lt_add_right hij)
      rwa [List.getElem_drop, List.getElem_drop] at this

theorem filter_eq_append (p : α → Bool) :
    items.filter p = (items.take n).filter p ++ (items.drop n).filter p := by
  rw [← List.filter_append, List.take_append_drop]

/-- What a time cuts a list into. -/
theorem filter_of_cut {t : T} (hfirst : ∀ x ∈ items.take n, t ≤ ts x)
    (hrest : ∀ x ∈ items.drop n, ts x < t) :
    (items.filter fun x => t ≤ ts x) = items.take n ∧
      (items.filter fun x => ts x < t) = items.drop n := by
  constructor
  · rw [filter_eq_append (n := n), List.filter_eq_self.2 fun x hx => decide_eq_true (hfirst x hx),
      List.filter_eq_nil_iff.2 fun x hx => by simpa using hrest x hx, List.append_nil]
  · rw [filter_eq_append (n := n), List.filter_eq_nil_iff.2 fun x hx => by simpa using hfirst x hx,
      List.filter_eq_self.2 fun x hx => decide_eq_true (hrest x hx), List.nil_append]

@[simp] theorem before_none : before ts none items = items :=
  List.filter_eq_self.2 fun _ _ => rfl

/-- A time that is met before the cursor is before it. -/
theorem before_some {t : T} (h : ∃ x ∈ before ts cursor items, ts x = t) :
    before ts (some t) items = (before ts cursor items).filter fun x => ts x < t := by
  obtain ⟨x, hx, rfl⟩ := h
  obtain ⟨-, hx⟩ := List.mem_filter.1 hx
  rw [before, before, List.filter_filter]
  refine List.filter_congr fun y _ => ?_
  rw [Option.all_some, Bool.eq_iff_iff, Bool.and_eq_true, iff_self_and]
  intro hy
  cases cursor with
  | none => rfl
  | some c =>
    exact decide_eq_true ((of_decide_eq_true hy).trans (of_decide_eq_true hx))

/-- What the pages from a cursor on hold is before it. -/
theorem Follows.subset {P : Option T → List α → Prop} {pages : List (List α)}
    (hP : ∀ c p, P c p → Page ts n items c p) (h : Follows P ts cursor pages) :
    pages.flatten ⊆ before ts cursor items := by
  induction h with
  | done _ => simp
  | next hp _ hold _ ih =>
    obtain ⟨l, hl, -, hpl⟩ := hP _ _ hp
    have hsub : _ ⊆ before ts _ items := fun x hx =>
      hl.subset (List.mem_of_mem_take (hpl.subset hx))
    rw [List.flatten_cons]
    refine List.append_subset.2 ⟨hsub, fun x hx => ?_⟩
    obtain ⟨⟨y, hy, hyt⟩, -⟩ := hold
    have := ih hx
    rw [before_some ⟨y, hsub hy, hyt⟩] at this
    exact List.mem_of_mem_filter this

section
variable {l M page : List α} {t : T}

/-- The times of a page are the first ones. -/
theorem Oldest.min (htimes : l.map ts = M.map ts) (hpage : page.Perm (l.take n))
    (h : Oldest ts page t) : t ∈ (M.map ts).take n ∧ ∀ x ∈ (M.map ts).take n, t ≤ x := by
  have hmem : ∀ x, x ∈ (M.map ts).take n ↔ ∃ y ∈ page, ts y = x := by
    intro x
    rw [← htimes, ← List.map_take, List.mem_map]
    exact exists_congr fun y => and_congr_left fun _ => hpage.mem_iff.symm
  refine ⟨(hmem t).2 h.1, fun x hx => ?_⟩
  obtain ⟨y, hy, rfl⟩ := (hmem x).1 hx
  exact h.2 y hy

/-- **Where the rest is older** than a page, it is what is before the oldest item of the page. -/
theorem Oldest.cut (hl : l.Perm M) (htimes : l.map ts = M.map ts) (hpage : page.Perm (l.take n))
    (h : Oldest ts page t) (hrest : ∀ x ∈ (M.map ts).drop n, x < t) :
    (M.filter fun x => ts x < t) = M.drop n ∧ page.Perm (M.take n) := by
  obtain ⟨-, hmin⟩ := h.min htimes hpage
  have hcut : ∀ k : List α, k.map ts = M.map ts →
      (k.filter fun x => t ≤ ts x) = k.take n ∧ (k.filter fun x => ts x < t) = k.drop n := by
    intro k hk
    rw [← hk, ← List.map_take] at hmin
    rw [← hk, ← List.map_drop] at hrest
    exact filter_of_cut (fun x hx => hmin _ (List.mem_map_of_mem hx))
      fun x hx => hrest _ (List.mem_map_of_mem hx)
  refine ⟨(hcut M rfl).2, hpage.trans ?_⟩
  rw [← (hcut M rfl).1, ← (hcut l htimes).1]
  exact hl.filter _

end

/-- The items before the cursor come once, if and only if they are apart. -/
theorem Follows.perm_iff {P : Option T → List α → Prop} {pages : List (List α)} (hn : 0 < n)
    (hP : ∀ c p, P c p → Page ts n items c p) (h : Follows P ts cursor pages) :
    pages.flatten.Perm (before ts cursor items) ↔ Apart n ((before ts cursor items).map ts) := by
  induction h with
  | @done cursor hp =>
    obtain ⟨l, hl, -, hpl⟩ := hP _ _ hp
    have hnil : l = [] := by
      have := hpl.length_eq
      rw [List.length_take, List.length_nil] at this
      exact List.length_eq_zero_iff.1 (by omega)
    rw [hnil] at hl
    rw [← hl.nil_eq]
    exact iff_of_true (List.Perm.refl _) fun i j hi => absurd hi (Nat.not_lt_zero i)
  | @next cursor t page pages hp hne hold hfollows ih =>
    obtain ⟨l, hl, htimes, hpl⟩ := hP _ _ hp
    have hsome : ∃ x ∈ before ts cursor items, ts x = t := by
      obtain ⟨x, hx, hxt⟩ := hold.1
      exact ⟨x, hl.subset (List.mem_of_mem_take (hpl.subset hx)), hxt⟩
    have hlater := hfollows.subset hP
    rw [before_some hsome] at ih hlater
    generalize before ts cursor items = M at *
    obtain ⟨ht, hmin⟩ := hold.min htimes hpl
    rw [List.flatten_cons, apart_iff hn]
    by_cases hrest : ∀ x ∈ (M.map ts).drop n, x < t
    · -- the page is cut off where the times fall
      obtain ⟨hfilter, hpage⟩ := hold.cut hl htimes hpl hrest
      rw [hfilter, List.map_drop] at ih
      rw [and_iff_right fun x hx y hy => (hrest y hy).trans_le (hmin x hx), ← ih]
      calc (page ++ pages.flatten).Perm M
          ↔ (M.take n ++ pages.flatten).Perm (M.take n ++ M.drop n) := by
            rw [List.take_append_drop]
            exact (hpage.append_right _).congr_left _
        _ ↔ pages.flatten.Perm (M.drop n) := List.perm_append_left_iff _
    · -- an item behind the page is not before the next cursor
      refine iff_of_false (fun hperm => hrest ?_) fun h => hrest fun x hx => h.1 t ht x hx
      have hdrop : pages.flatten.Perm (l.drop n) := by
        have := hperm.trans hl.symm
        rw [← List.take_append_drop n l] at this
        exact (List.perm_append_left_iff _).1 ((hpl.append_right _).symm.trans this)
      intro x hx
      rw [← htimes, ← List.map_drop] at hx
      obtain ⟨y, hy, rfl⟩ := List.mem_map.1 hx
      exact of_decide_eq_true (List.mem_filter.1 (hlater (hdrop.symm.subset hy))).2

/-- **The client comes to an empty page.** -/
theorem exists_follows {P : Option T → List α → Prop} (hP : ∀ c p, P c p → Page ts n items c p)
    (hanswer : ∀ c, ∃ p, P c p) (cursor : Option T) : ∃ pages, Follows P ts cursor pages := by
  induction hk : (before ts cursor items).length using Nat.strong_induction_on
    generalizing cursor with
  | _ k ih =>
    subst hk
    obtain ⟨page, hp⟩ := hanswer cursor
    cases page with
    | nil => exact ⟨[], .done hp⟩
    | cons x page =>
      obtain ⟨l, hl, -, hpl⟩ := hP _ _ hp
      have hoption : List.argmin ts (x :: page) ≠ none :=
        mt List.argmin_eq_none.1 (List.cons_ne_nil x page)
      obtain ⟨y, hy⟩ := Option.ne_none_iff_exists'.1 hoption
      have hmem : y ∈ before ts cursor items :=
        hl.subset (List.mem_of_mem_take (hpl.subset (List.argmin_mem hy)))
      have hlt : (before ts (some (ts y)) items).length < (before ts cursor items).length := by
        rw [before_some ⟨y, hmem, rfl⟩]
        exact List.length_filter_lt_length_iff_exists.2 ⟨y, hmem, by simp⟩
      obtain ⟨pages, h⟩ := ih _ hlt _ rfl
      exact ⟨_, .next hp (List.cons_ne_nil x page)
        ⟨⟨y, List.argmin_mem hy, rfl⟩, fun z hz => List.le_of_mem_argmin hz hy⟩ h⟩

/-- A client that follows the pages comes to an empty one and then has got every item once. -/
def Enumerates (P : Option T → List α → Prop) (ts : α → T) (items : List α) : Prop :=
  (∃ pages, Follows P ts none pages) ∧
    ∀ pages, Follows P ts none pages → pages.flatten.Perm items

theorem enumerates_congr {P : Option T → List α → Prop} {items' : List α}
    (h : items.Perm items') : Enumerates P ts items ↔ Enumerates P ts items' :=
  and_congr_right fun _ => forall_congr' fun _ => imp_congr_right fun _ => h.congr_right _

/-- **Every item once**, exactly if the times of different pages are apart. -/
theorem enumerates_iff {P : Option T → List α → Prop} (hn : 0 < n)
    (hP : ∀ c p, P c p → Page ts n items c p) (hanswer : ∀ c, ∃ p, P c p) :
    Enumerates P ts items ↔ Apart n (items.map ts) := by
  have hiff : ∀ pages, Follows P ts none pages →
      (pages.flatten.Perm items ↔ Apart n (items.map ts)) := by
    intro pages h
    have := h.perm_iff hn hP
    rwa [before_none] at this
  obtain ⟨pages, h⟩ := exists_follows hP hanswer none
  exact ⟨fun hall => (hiff pages h).1 (hall.2 pages h),
    fun hapart => ⟨⟨pages, h⟩, fun pages h => (hiff pages h).2 hapart⟩⟩

end Listing
