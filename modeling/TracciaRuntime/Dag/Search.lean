/-
  Depth-first search for a cycle in a finite dependency graph.

  * `visit`: the search from one vertex, given the path to it; it lists the vertices it is
    done with, the latest first;
  * `Sorted`: a list in which every vertex comes after what it depends on (the latest first);
  * `visit_sorted`, `visit_ranked`: the search lists a sorted list if it finds no cycle, and
    finds none where the vertices can be ranked;
  * `Sorted.ready`, `Sorted.induction`: what a sorted list is good for; `Sorted.append`,
    `Sorted.filter`: sorted lists after one another, and parts of them;
  * `acyclic_iff_sorted`: a finite graph has no cycle iff its vertices can be sorted;
  * `Visits`: the search without a bound on its depth, call by call; `visits` says that it ends;
  * `values`: values along a sorted list, each a function of the values of those the vertex
    depends on;
  * `Sorted.values_eq`: whatever solves the same equations agrees with them, also where it is
    not defined everywhere.
-/
import Mathlib.Data.Finset.Card
import Mathlib.Data.List.Dedup
import Mathlib.Data.List.Perm.Subperm
import Mathlib.Logic.Relation
import TracciaRuntime.Py.Result

namespace Dag

variable {α ε : Type} {deps : α → List α}

section
variable [DecidableEq α]

def visit (deps : α → List α) (cycle : ε) : Nat → List α → α → List α → Except ε (List α)
  | 0, _, _, _ => .error cycle
  | fuel + 1, visiting, a, visited =>
    if a ∈ visiting then .error cycle
    else if a ∈ visited then .ok visited
    else do
      let visited ← (deps a).foldlM (fun l d => visit deps cycle fuel (a :: visiting) d l) visited
      .ok (a :: visited)

end

def Sorted (deps : α → List α) : List α → Prop
  | [] => True
  | a :: l => (∀ d ∈ deps a, d ∈ l) ∧ Sorted deps l

/-! ## Loops of visits -/

/-- A loop of visits keeps what each visit keeps. -/
theorem foldlM_keeps {f : List α → α → Except ε (List α)} {I : List α → Prop} {ds : List α}
    (hf : ∀ l d l', d ∈ ds → I l → f l d = .ok l' → I l' ∧ l ⊆ l' ∧ d ∈ l') {l l' : List α}
    (hl : I l) (h : ds.foldlM f l = .ok l') : I l' ∧ l ⊆ l' ∧ ∀ d ∈ ds, d ∈ l' := by
  induction ds generalizing l with
  | nil =>
    rw [List.foldlM_nil] at h
    cases h
    exact ⟨hl, fun _ => id, fun d hd => by cases hd⟩
  | cons d ds ih =>
    rw [List.foldlM_cons] at h
    obtain ⟨l₁, h₁, h⟩ := Py.bind_eq_ok.1 h
    obtain ⟨hI, hsub, hd⟩ := hf l d l₁ List.mem_cons_self hl h₁
    obtain ⟨hI', hsub', hds⟩ :=
      ih (fun l d l' hd => hf l d l' (List.mem_cons_of_mem _ hd)) hI h
    refine ⟨hI', fun _ hx => hsub' (hsub hx), fun x hx => ?_⟩
    rcases List.mem_cons.1 hx with rfl | hx
    · exact hsub' hd
    · exact hds x hx

theorem foldlM_ok {f : List α → α → Except ε (List α)} {ds : List α}
    (hf : ∀ l, ∀ d ∈ ds, ∃ l', f l d = .ok l') (l : List α) : ∃ l', ds.foldlM f l = .ok l' := by
  induction ds generalizing l with
  | nil => exact ⟨l, rfl⟩
  | cons d ds ih =>
    obtain ⟨l₁, h₁⟩ := hf l d List.mem_cons_self
    obtain ⟨l', h'⟩ := ih (fun l d hd => hf l d (List.mem_cons_of_mem _ hd)) l₁
    exact ⟨l', by rw [List.foldlM_cons, h₁]; exact h'⟩

/-! ## Sorted lists -/

/-- What is not done yet can go on somewhere. -/
theorem Sorted.ready {l : List α} (h : Sorted deps l) {Done : α → Prop} {a : α} (ha : a ∈ l)
    (hd : ¬ Done a) : ∃ b ∈ l, ¬ Done b ∧ ∀ d ∈ deps b, Done d := by
  classical
  induction l generalizing a with
  | nil => cases ha
  | cons b l ih =>
    by_cases hl : ∃ c ∈ l, ¬ Done c
    · obtain ⟨c, hc, hcd⟩ := hl
      obtain ⟨b', hb', h'⟩ := ih h.2 hc hcd
      exact ⟨b', List.mem_cons_of_mem _ hb', h'⟩
    · push Not at hl
      rcases List.mem_cons.1 ha with rfl | hal
      · exact ⟨a, List.mem_cons_self, hd, fun d hdep => hl d (h.1 d hdep)⟩
      · exact absurd (hl a hal) hd

theorem Sorted.induction {l : List α} (h : Sorted deps l) {P : α → Prop}
    (step : ∀ a ∈ l, (∀ d ∈ deps a, P d) → P a) : ∀ a ∈ l, P a := by
  intro a ha
  by_contra hna
  obtain ⟨b, hb, hnb, hdeps⟩ := h.ready ha hna
  exact hnb (step b hb hdeps)

/-- A list stays sorted if its vertices depend on less. -/
theorem Sorted.mono {deps' : α → List α} {l : List α} (h : Sorted deps l)
    (hd : ∀ a ∈ l, deps' a ⊆ deps a) : Sorted deps' l := by
  induction l with
  | nil => trivial
  | cons a l ih =>
    exact ⟨fun d hdep => h.1 d (hd a List.mem_cons_self hdep),
      ih h.2 fun b hb => hd b (List.mem_cons_of_mem _ hb)⟩

theorem Sorted.of_free {l : List α} (h : ∀ a ∈ l, deps a = []) : Sorted deps l := by
  induction l with
  | nil => trivial
  | cons a l ih =>
    refine ⟨fun d hdep => ?_, ih fun b hb => h b (List.mem_cons_of_mem _ hb)⟩
    rw [h a List.mem_cons_self] at hdep
    cases hdep

/-- What is sorted but for what comes before it. -/
theorem Sorted.append {deps' : α → List α} {l m : List α} (hl : Sorted deps' l)
    (hm : Sorted deps m) (h : ∀ a ∈ l, ∀ d ∈ deps a, d ∈ deps' a ∨ d ∈ m) :
    Sorted deps (l ++ m) := by
  induction l with
  | nil => exact hm
  | cons a l ih =>
    refine ⟨fun d hd => ?_, ih hl.2 fun b hb => h b (List.mem_cons_of_mem _ hb)⟩
    rcases h a List.mem_cons_self d hd with hd | hd
    · exact List.mem_append_left _ (hl.1 d hd)
    · exact List.mem_append_right _ hd

/-- A part of the vertices, each after those of the part that it depends on. -/
theorem Sorted.filter {p : α → Bool} {l : List α} (h : Sorted deps l) :
    Sorted (fun a => (deps a).filter p) (l.filter p) := by
  induction l with
  | nil => trivial
  | cons a l ih =>
    rw [List.filter_cons]
    split
    · refine ⟨fun d hd => ?_, ih h.2⟩
      obtain ⟨hd, hp⟩ := List.mem_filter.1 hd
      exact List.mem_filter.2 ⟨h.1 d hd, hp⟩
    · exact ih h.2

variable [DecidableEq α]

/-- The number of vertices that a vertex of a sorted list comes after ranks the vertices. -/
def rank : List α → α → Nat
  | [], _ => 0
  | b :: l, a => if a ∈ l then rank l a else if a = b then l.length else 0

theorem rank_lt_length {l : List α} {a : α} (ha : a ∈ l) : rank l a < l.length := by
  induction l with
  | nil => cases ha
  | cons b l ih =>
    simp only [rank, List.length_cons]
    by_cases hl : a ∈ l
    · rw [if_pos hl]
      exact Nat.lt_succ_of_lt (ih hl)
    · rw [if_neg hl]
      split <;> omega

theorem Sorted.rank_lt {l : List α} (h : Sorted deps l) {a d : α} (ha : a ∈ l)
    (hd : d ∈ deps a) : d ∈ l ∧ rank l d < rank l a := by
  induction l with
  | nil => cases ha
  | cons b l ih =>
    by_cases hl : a ∈ l
    · obtain ⟨hdl, hlt⟩ := ih h.2 hl
      refine ⟨List.mem_cons_of_mem _ hdl, ?_⟩
      simpa only [rank, if_pos hl, if_pos hdl] using hlt
    · obtain rfl : a = b := (List.mem_cons.1 ha).resolve_right hl
      have hdl := h.1 d hd
      refine ⟨List.mem_cons_of_mem _ hdl, ?_⟩
      simpa only [rank, if_pos hdl, if_neg hl, if_true] using rank_lt_length hdl

theorem Sorted.dedup {l : List α} (h : Sorted deps l) : Sorted deps l.dedup := by
  induction l with
  | nil => exact h
  | cons a l ih =>
    by_cases ha : a ∈ l
    · rw [List.dedup_cons_of_mem ha]
      exact ih h.2
    · rw [List.dedup_cons_of_notMem ha]
      exact ⟨fun d hd => List.mem_dedup.2 (h.1 d hd), ih h.2⟩

/-! ## The search -/

/-- The vertices that the search is done with are sorted and belong to the graph. -/
structure Visited (deps : α → List α) (K : α → Prop) (l : List α) : Prop where
  sorted : Sorted deps l
  known : ∀ a ∈ l, K a

theorem visit_sorted {cycle : ε} {K : α → Prop} (hK : ∀ a d, K a → d ∈ deps a → K d)
    {fuel : Nat} {visiting l l' : List α} {a : α} (ha : K a) (hl : Visited deps K l)
    (h : visit deps cycle fuel visiting a l = .ok l') :
    Visited deps K l' ∧ l ⊆ l' ∧ a ∈ l' := by
  induction fuel generalizing visiting a l l' with
  | zero => cases h
  | succ fuel ih =>
    rw [visit] at h
    split at h
    · cases h
    split at h
    · rename_i hal
      cases h
      exact ⟨hl, fun _ => id, hal⟩
    obtain ⟨l₁, h₁, h⟩ := Py.bind_eq_ok.1 h
    cases h
    obtain ⟨hl₁, hsub, hdeps⟩ :=
      foldlM_keeps (fun l d l' hd hl h => ih (hK a d ha hd) hl h) hl h₁
    refine ⟨⟨⟨hdeps, hl₁.sorted⟩, fun x hx => ?_⟩, fun x hx => List.mem_cons_of_mem _ (hsub hx),
      List.mem_cons_self⟩
    rcases List.mem_cons.1 hx with rfl | hx
    · exact ha
    · exact hl₁.known x hx

/-- Where the vertices can be ranked the search finds no cycle and does not run out of fuel. -/
theorem visit_ranked {cycle : ε} {K : α → Prop} {r : α → Nat}
    (hK : ∀ a d, K a → d ∈ deps a → K d ∧ r d < r a) {fuel : Nat} {visiting : List α} {a : α}
    (ha : K a) (hfuel : r a < fuel) (hpath : ∀ b ∈ visiting, r a < r b) (l : List α) :
    ∃ l', visit deps cycle fuel visiting a l = .ok l' := by
  induction fuel generalizing visiting a l with
  | zero => omega
  | succ fuel ih =>
    have hnew : a ∉ visiting := fun h => Nat.lt_irrefl _ (hpath a h)
    rw [visit, if_neg hnew]
    split
    · exact ⟨l, rfl⟩
    obtain ⟨l', h'⟩ := foldlM_ok (f := fun l d => visit deps cycle fuel (a :: visiting) d l)
      (fun l d (hd : d ∈ deps a) => by
        obtain ⟨hKd, hlt⟩ := hK a d ha hd
        refine ih hKd (by omega) (fun b hb => ?_) l
        rcases List.mem_cons.1 hb with rfl | hb
        · exact hlt
        · exact Nat.lt_trans hlt (hpath b hb)) l
    exact ⟨a :: l', by rw [h']; rfl⟩

/-! ## Cycles -/

/-- No vertex depends on itself, directly or not. -/
def Acyclic (deps : α → List α) : Prop := ∀ a, ¬ Relation.TransGen (fun a d => d ∈ deps a) a a

/-- A sorted list of all vertices that depend on others leaves no room for a cycle. -/
theorem Sorted.acyclic {l : List α} (h : Sorted deps l) (hl : ∀ a d, d ∈ deps a → a ∈ l) :
    Acyclic deps := by
  have lower : ∀ a b, Relation.TransGen (fun a d => d ∈ deps a) a b → rank l b < rank l a := by
    intro a b hab
    induction hab with
    | single hd => exact (h.rank_lt (hl _ _ hd) hd).2
    | tail _ hd ih => exact Nat.lt_trans (h.rank_lt (hl _ _ hd) hd).2 ih
  exact fun a ha => Nat.lt_irrefl _ (lower a a ha)

section
open Classical

/-- How many of the vertices a vertex depends on, directly or not. -/
private noncomputable def below (deps : α → List α) (ids : List α) (a : α) : Nat :=
  (ids.toFinset.filter fun b => Relation.TransGen (fun a d => d ∈ deps a) a b).card

private theorem below_lt {ids : List α} (hc : Acyclic deps) (hids : ∀ a d, d ∈ deps a → d ∈ ids)
    {a d : α} (hd : d ∈ deps a) : below deps ids d < below deps ids a := by
  refine Finset.card_lt_card ((Finset.ssubset_iff_of_subset ?_).2 ⟨d, ?_, ?_⟩)
  · intro b hb
    simp only [Finset.mem_filter] at hb ⊢
    exact ⟨hb.1, Relation.TransGen.head hd hb.2⟩
  · simpa using ⟨hids a d hd, Relation.TransGen.single hd⟩
  · simpa using fun _ => hc d

private theorem below_le (ids : List α) (a : α) : below deps ids a ≤ ids.length :=
  (Finset.card_filter_le _ _).trans (List.toFinset_card_le ids)

end

/-- The search from each of the vertices of a graph without cycles succeeds. -/
theorem search_acyclic (cycle : ε) {ids : List α} (hc : Acyclic deps)
    (hids : ∀ a d, d ∈ deps a → d ∈ ids) :
    ∃ l, ids.foldlM (fun l a => visit deps cycle (ids.length + 1) [] a l) [] = .ok l := by
  refine foldlM_ok (fun l a (ha : a ∈ ids) => visit_ranked (K := (· ∈ ids)) (r := below deps ids)
    (fun a d _ hd => ⟨hids a d hd, below_lt hc hids hd⟩) ha ?_ (fun b hb => by cases hb) l) []
  exact Nat.lt_succ_of_le (below_le ids a)

/-- The search from each of the vertices lists all of them, sorted. -/
theorem sorted_of_search {cycle : ε} {ids l : List α} {fuel : Nat}
    (hids : ∀ a d, a ∈ ids → d ∈ deps a → d ∈ ids)
    (h : ids.foldlM (fun l a => visit deps cycle fuel [] a l) [] = .ok l) :
    Sorted deps l ∧ ∀ a, a ∈ l ↔ a ∈ ids := by
  obtain ⟨hv, -, hall⟩ := foldlM_keeps (I := Visited deps (· ∈ ids)) (l := [])
    (fun l d l' hd hI h => visit_sorted hids hd hI h)
    ⟨trivial, fun a ha => by cases ha⟩ h
  exact ⟨hv.sorted, fun a => ⟨hv.known a, hall a⟩⟩

/-- **No cycle, iff sorted.** -/
theorem acyclic_iff_sorted {ids : List α} (hids : ∀ a d, d ∈ deps a → a ∈ ids ∧ d ∈ ids) :
    Acyclic deps ↔ ∃ l, Sorted deps l ∧ ∀ a, a ∈ l ↔ a ∈ ids := by
  constructor
  · intro hc
    obtain ⟨l, hl⟩ := search_acyclic () hc fun a d hd => (hids a d hd).2
    exact ⟨l, sorted_of_search (fun a d _ hd => (hids a d hd).2) hl⟩
  · rintro ⟨l, hs, hl⟩
    exact hs.acyclic fun a d hd => (hl a).2 (hids a d hd).1

/-! ## The recursion -/

/-- The loop `for a in todo: visit(a)`, from the path `visiting` and the marks `visited` to what
    it returns or raises. -/
inductive Visits (deps : α → List α) (cycle : ε) :
    (visiting todo visited : List α) → Except ε (List α) → Prop
  | nil {visiting visited : List α} : Visits deps cycle visiting [] visited (.ok visited)
  | cycle {visiting todo visited : List α} {a : α} : a ∈ visiting →
      Visits deps cycle visiting (a :: todo) visited (.error cycle)
  | seen {visiting todo visited : List α} {a : α} {r : Except ε (List α)} : a ∉ visiting →
      a ∈ visited → Visits deps cycle visiting todo visited r →
      Visits deps cycle visiting (a :: todo) visited r
  | raised {visiting todo visited : List α} {a : α} {e : ε} : a ∉ visiting → a ∉ visited →
      Visits deps cycle (a :: visiting) (deps a) visited (.error e) →
      Visits deps cycle visiting (a :: todo) visited (.error e)
  | entered {visiting todo visited l : List α} {a : α} {r : Except ε (List α)} : a ∉ visiting →
      a ∉ visited → Visits deps cycle (a :: visiting) (deps a) visited (.ok l) →
      Visits deps cycle visiting todo (a :: l) r →
      Visits deps cycle visiting (a :: todo) visited r

/-- **The recursion ends**, with what `visit` computes: a path has no vertex twice, so its length
    is bounded by the number of vertices. -/
theorem visits {cycle : ε} {ids : List α} (hids : ∀ a d, d ∈ deps a → d ∈ ids) {fuel : Nat}
    {visiting todo : List α} (hfuel : ids.length < fuel + visiting.length)
    (hpath : visiting.Nodup) (hv : visiting ⊆ ids) (htodo : todo ⊆ ids) (visited : List α) :
    Visits deps cycle visiting todo visited
      (todo.foldlM (fun l a => visit deps cycle fuel visiting a l) visited) := by
  induction fuel generalizing visiting todo visited with
  | zero =>
    have hle := (hpath.subperm hv).length_le
    omega
  | succ fuel ih =>
    induction todo generalizing visited with
    | nil => exact .nil
    | cons a todo ihTodo =>
      obtain ⟨ha, htodo⟩ := List.cons_subset.1 htodo
      rw [List.foldlM_cons, visit]
      by_cases hvisiting : a ∈ visiting
      · rw [if_pos hvisiting]
        exact .cycle hvisiting
      rw [if_neg hvisiting]
      by_cases hvisited : a ∈ visited
      · rw [if_pos hvisited]
        exact .seen hvisiting hvisited (ihTodo htodo visited)
      rw [if_neg hvisited]
      have hlen : ids.length < fuel + (a :: visiting).length := by
        rw [List.length_cons]
        omega
      have hdeps := ih hlen (List.nodup_cons.2 ⟨hvisiting, hpath⟩) (List.cons_subset.2 ⟨ha, hv⟩)
        (fun d hd => hids a d hd) visited
      cases hr : (deps a).foldlM (fun l d => visit deps cycle fuel (a :: visiting) d l) visited with
      | error e =>
        rw [hr] at hdeps
        exact .raised hvisiting hvisited hdeps
      | ok l =>
        rw [hr] at hdeps
        exact .entered hvisiting hvisited hdeps (ihTodo htodo (a :: l))

/-! ## Values -/

section
variable {β : Type} [DecidableEq α] {l : List α} {eval : (α → Option β) → α → Option β}

/-- The values of a sorted list of vertices. -/
def values (eval : (α → Option β) → α → Option β) : List α → α → Option β
  | [], _ => none
  | a :: l, b => if b = a then eval (values eval l) a else values eval l b

/-- The equation of a vertex reads only what the vertex depends on. -/
def Local (deps : α → List α) (eval : (α → Option β) → α → Option β) : Prop :=
  ∀ a ρ ρ', (∀ d ∈ deps a, ρ d = ρ' d) → eval ρ a = eval ρ' a

theorem values_of_not_mem {a : α} (h : a ∉ l) : values eval l a = none := by
  induction l with
  | nil => rfl
  | cons b l ih =>
    rw [List.mem_cons, not_or] at h
    rw [values, if_neg h.1]
    exact ih h.2

/-- **A solution agrees with the values**, where it is defined. -/
theorem Sorted.values_eq (h : Sorted deps l) (hlocal : Local deps eval) {ρ : α → Option β}
    {Done : α → Prop} (hdeps : ∀ a, Done a → ∀ d ∈ deps a, Done d)
    (hsolves : ∀ a, Done a → ρ a = eval ρ a) {a : α} (ha : a ∈ l) (hd : Done a) :
    values eval l a = ρ a := by
  induction l generalizing a with
  | nil => cases ha
  | cons b l ih =>
    by_cases hab : a = b
    · subst hab
      rw [values, if_pos rfl, hsolves a hd]
      exact hlocal a _ _ fun c hc => ih h.2 (h.1 c hc) (hdeps a hd c hc)
    · rw [values, if_neg hab]
      exact ih h.2 ((List.mem_cons.1 ha).resolve_left hab) hd

end

end Dag
