/-
  The comparison of two periods, under permutations of their rows.

  * `foldlM_addBaseline`: the index finds the last baseline row with a key;
  * `accepted_iff`: when a comparison returns;
  * `comparison_iff`: when it does not depend on the order of the rows.
-/
import TracciaRuntime.Proof.RowJoins

namespace TracciaRuntime.Analytics

open Py

variable {V F : Type} {c : Cells V F} {configuration : ComparisonConfiguration}
  {current baseline rows : List (Row V)} {keys : List String} {metric : String}

/-! ## One row -/

theorem Row.get_set (r : Row V) (column column' : String) (v : Option V) :
    (r.set column v).get column' = if column' = column then v else r.get column' := by
  unfold Row.get Row.set
  rw [Dict.get_set]
  split <;> rfl

/-- `float(x)` or `float(y)` raises, where `compare_periods` evaluates both. -/
def Overflows (c : Cells V F) (x y : Option V) : Prop := ∃ e, floats c x y = .error e

/-- A row is compared unless a number overflows. -/
theorem compareRow_ok_iff {row : Row V} {prior : Option (Row V)} :
    (∃ out, compareRow c metric row prior = .ok out) ↔
      ¬Overflows c (row.get metric) (prior.bind (·.get metric)) := by
  constructor
  · rintro ⟨out, h⟩ ⟨e, he⟩
    obtain ⟨values, hv, -⟩ := bind_eq_ok.1 h
    rw [he] at hv
    cases hv
  · intro h
    cases hv : floats c (row.get metric) (prior.bind (·.get metric)) with
    | error e => exact absurd ⟨e, hv⟩ h
    | ok values => exact ⟨_, bind_eq_ok.2 ⟨values, hv, rfl⟩⟩

/-- The baseline value is shown. -/
theorem compareRow_baseline {row out : Row V} {prior : Option (Row V)}
    (h : compareRow c metric row prior = .ok out) :
    out.get ("baseline_" ++ metric) = prior.bind (·.get metric) := by
  obtain ⟨values, -, h⟩ := bind_eq_ok.1 h
  cases h
  have hpercent : "baseline_" ++ metric ≠ "percent_change_" ++ metric := by
    intro h
    have hl := congrArg String.toList h
    simp at hl
  have hdelta : "baseline_" ++ metric ≠ "delta_" ++ metric := by
    intro h
    have hl := congrArg String.toList h
    simp at hl
  rw [Row.get_set, if_neg hpercent, Row.get_set, if_neg hdelta, Row.get_set, if_pos rfl]

/-- A row is compared by the metric of its prior only. -/
theorem compareRow_congr {row : Row V} {prior prior' : Option (Row V)}
    (h : prior.bind (·.get metric) = prior'.bind (·.get metric)) :
    compareRow c metric row prior = compareRow c metric row prior' := by
  unfold compareRow
  rw [h]

/-! ## All rows -/

/-- The last baseline row with the key of a row. -/
def priorOf (c : Cells V F) (keys : List String) (baseline : List (Row V)) (row : Row V) :
    Option (Row V) :=
  (under c keys baseline (row.key keys)).getLast?

theorem foldlM_addBaseline {index : Index V (Row V)}
    (h : baseline.foldlM (addBaseline c keys) [] = .ok index) :
    (∀ r ∈ baseline, c.Hashable (r.key keys)) ∧
      ∀ key, index.get c key = (under c keys baseline key).getLast? := by
  refine foldlM_invariant (I := fun seen (index : Index V (Row V)) =>
    (∀ r ∈ seen, c.Hashable (r.key keys)) ∧
      ∀ key, index.get c key = (under c keys seen key).getLast?)
    ⟨List.forall_mem_nil _, fun _ => rfl⟩ (fun seen index row index' _ hI hadd => ?_) h
  obtain ⟨_, hhash, hadd⟩ := bind_eq_ok.1 hadd
  cases hadd
  refine ⟨fun r hr => ?_, fun key => ?_⟩
  · rcases List.mem_append.1 hr with hr | hr
    · exact hI.1 r hr
    · rw [List.mem_singleton.1 hr]
      exact Cells.hash_eq_ok.1 hhash
  · rw [Index.get_set, under_append, hI.2]
    split
    · rename_i hs
      simp [under, hs]
    · rename_i hs
      simp [under, hs]

/-- **What a comparison returns.** -/
theorem comparePeriods_iff :
    comparePeriods c configuration (some current) (some baseline) = .ok rows ↔
      (∀ r ∈ baseline, c.Hashable (r.key configuration.keys)) ∧
      List.Forall₂ (fun row out => c.Hashable (row.key configuration.keys) ∧
        compareRow c configuration.metric row (priorOf c configuration.keys baseline row) = .ok out)
        current rows := by
  have hrow : ∀ {index : Index V (Row V)} {row out : Row V},
      (∀ key, index.get c key = (under c configuration.keys baseline key).getLast?) →
      (comparedRow c configuration index row = .ok out ↔ c.Hashable (row.key configuration.keys) ∧
        compareRow c configuration.metric row (priorOf c configuration.keys baseline row) =
          .ok out) := by
    intro index row out hindex
    unfold comparedRow
    rw [bind_eq_ok]
    simp only [Cells.hash_eq_ok, exists_const, hindex, priorOf]
  unfold comparePeriods
  simp only [bind_eq_ok, mapM_eq_ok]
  constructor
  · rintro ⟨index, hfold, hrows⟩
    obtain ⟨hhash, hindex⟩ := foldlM_addBaseline hfold
    exact ⟨hhash, hrows.imp fun _ _ h => (hrow hindex).1 h⟩
  · rintro ⟨hhash, hrows⟩
    obtain ⟨index, hfold⟩ := exists_foldlM (f := addBaseline c configuration.keys)
      (l := baseline) (fun index r hr => ⟨Index.set c index (r.key configuration.keys) r,
        bind_eq_ok.2 ⟨(), Cells.hash_eq_ok.2 (hhash r hr), rfl⟩⟩) []
    exact ⟨index, hfold, hrows.imp fun _ _ h => (hrow (foldlM_addBaseline hfold).2).2 h⟩

/-- A comparison of these rows returns. -/
structure Accepted (c : Cells V F) (configuration : ComparisonConfiguration)
    (current baseline : List (Row V)) : Prop where
  baseline_hashable : ∀ r ∈ baseline, c.Hashable (r.key configuration.keys)
  current_hashable : ∀ row ∈ current, c.Hashable (row.key configuration.keys)
  floats : ∀ row ∈ current, ¬Overflows c (row.get configuration.metric)
    ((priorOf c configuration.keys baseline row).bind (·.get configuration.metric))

/-- The rows of a comparison that returns are a function of the current rows. -/
theorem Accepted.returns (h : Accepted c configuration current baseline) :
    ∃ f : Row V → Row V,
      (∀ row ∈ current, compareRow c configuration.metric row
        (priorOf c configuration.keys baseline row) = .ok (f row)) ∧
      comparePeriods c configuration (some current) (some baseline) = .ok (current.map f) := by
  have hrow : ∀ row ∈ current, ∃ out, compareRow c configuration.metric row
      (priorOf c configuration.keys baseline row) = .ok out :=
    fun row hr => compareRow_ok_iff.2 (h.floats row hr)
  classical
  let f (row : Row V) : Row V := if hr : row ∈ current then (hrow row hr).choose else row
  have hf : ∀ row ∈ current, compareRow c configuration.metric row
      (priorOf c configuration.keys baseline row) = .ok (f row) := by
    intro row hr
    have hfr : f row = (hrow row hr).choose := dif_pos hr
    rw [hfr]
    exact (hrow row hr).choose_spec
  refine ⟨f, hf, ?_⟩
  rw [comparePeriods_iff, List.forall₂_map_right_iff, List.forall₂_same]
  exact ⟨h.baseline_hashable, fun row hr => ⟨h.current_hashable row hr, hf row hr⟩⟩

theorem accepted_iff : Accepted c configuration current baseline ↔
    ∃ rows, comparePeriods c configuration (some current) (some baseline) = .ok rows := by
  constructor
  · intro h
    obtain ⟨f, -, hf⟩ := h.returns
    exact ⟨_, hf⟩
  · rintro ⟨rows, hrows⟩
    obtain ⟨hhash, hall⟩ := comparePeriods_iff.1 hrows
    refine ⟨hhash, fun row hr => ?_, fun row hr => ?_⟩
    · obtain ⟨out, -, h, -⟩ := exists_of_mem_left hall hr
      exact h
    · obtain ⟨out, -, -, h⟩ := exists_of_mem_left hall hr
      exact compareRow_ok_iff.1 ⟨out, h⟩

/-! ## The order of the rows -/

/-- **The comparison does not depend on the order of the rows**: it is rejected in every order, or
    it returns, for each current row, what does not depend on the order. -/
def OrderFree (c : Cells V F) (configuration : ComparisonConfiguration)
    (current baseline : List (Row V)) : Prop :=
  (∀ current' baseline' : List (Row V), current'.Perm current → baseline'.Perm baseline →
    ∃ e, comparePeriods c configuration (some current') (some baseline') = .error e) ∨
  ∃ f : Row V → Row V, ∀ current' baseline' : List (Row V), current'.Perm current →
    baseline'.Perm baseline →
    comparePeriods c configuration (some current') (some baseline') = .ok (current'.map f)

/-- The baseline rows with the key of a current row have one metric. -/
def OneMetric (c : Cells V F) (configuration : ComparisonConfiguration)
    (current baseline : List (Row V)) : Prop :=
  ∀ row ∈ current, ∀ b ∈ under c configuration.keys baseline (row.key configuration.keys),
    ∀ b' ∈ under c configuration.keys baseline (row.key configuration.keys),
      b.get configuration.metric = b'.get configuration.metric

/-- No order is accepted: a key cannot be hashed, or there is a current row with prior rows, each
    of which has a metric that cannot be compared with that of a current row with their key. -/
def Rejected (c : Cells V F) (configuration : ComparisonConfiguration)
    (current baseline : List (Row V)) : Prop :=
  (∃ r, (r ∈ baseline ∨ r ∈ current) ∧ ¬c.Hashable (r.key configuration.keys)) ∨
  ∃ row ∈ current, under c configuration.keys baseline (row.key configuration.keys) ≠ [] ∧
    ∀ b ∈ under c configuration.keys baseline (row.key configuration.keys), ∃ row' ∈ current,
      c.sameKey (row'.key configuration.keys) (row.key configuration.keys) = true ∧
      Overflows c (row'.get configuration.metric) (b.get configuration.metric)

section
variable {current' baseline' : List (Row V)}

theorem under_perm (h : baseline'.Perm baseline) (key : List (Option V)) :
    (under c keys baseline' key).Perm (under c keys baseline key) :=
  h.filter _

/-- A prior is one of the rows with the key. -/
theorem mem_of_priorOf {row b : Row V} (h : priorOf c keys baseline row = some b) :
    b ∈ under c keys baseline (row.key keys) :=
  List.mem_of_getLast? h

/-- Where the rows with a key have one metric, the prior has it in every order. -/
theorem OneMetric.prior (h : OneMetric c configuration current baseline)
    (hp : baseline'.Perm baseline) {row : Row V} (hr : row ∈ current) :
    (priorOf c configuration.keys baseline' row).bind (·.get configuration.metric) =
      (priorOf c configuration.keys baseline row).bind (·.get configuration.metric) := by
  have hperm : (under c configuration.keys baseline' (row.key configuration.keys)).Perm _ :=
    under_perm hp (row.key configuration.keys)
  cases hb : priorOf c configuration.keys baseline row with
  | none =>
    have hnil := List.getLast?_eq_none_iff.1 hb
    rw [hnil] at hperm
    rw [show priorOf c configuration.keys baseline' row = none from
      List.getLast?_eq_none_iff.2 hperm.eq_nil]
  | some b =>
    cases hb' : priorOf c configuration.keys baseline' row with
    | none =>
      have hnil := List.getLast?_eq_none_iff.1 hb'
      rw [hnil] at hperm
      have hmem := mem_of_priorOf hb
      rw [hperm.symm.eq_nil] at hmem
      cases hmem
    | some b' =>
      exact h row hr b' (hperm.mem_iff.1 (mem_of_priorOf hb')) b (mem_of_priorOf hb)

theorem OneMetric.accepted (h : OneMetric c configuration current baseline)
    (hc : current'.Perm current) (hb : baseline'.Perm baseline) :
    Accepted c configuration current' baseline' ↔ Accepted c configuration current baseline := by
  constructor
  · rintro ⟨hhash, hkeys, hfloats⟩
    refine ⟨fun r hr => hhash r (hb.mem_iff.2 hr), fun r hr => hkeys r (hc.mem_iff.2 hr),
      fun r hr => ?_⟩
    rw [← h.prior hb hr]
    exact hfloats r (hc.mem_iff.2 hr)
  · rintro ⟨hhash, hkeys, hfloats⟩
    refine ⟨fun r hr => hhash r (hb.mem_iff.1 hr), fun r hr => hkeys r (hc.mem_iff.1 hr),
      fun r hr => ?_⟩
    rw [h.prior hb (hc.mem_iff.1 hr)]
    exact hfloats r (hc.mem_iff.1 hr)

theorem OneMetric.orderFree (h : OneMetric c configuration current baseline) :
    OrderFree c configuration current baseline := by
  by_cases ha : Accepted c configuration current baseline
  · right
    obtain ⟨f, hf, -⟩ := ha.returns
    refine ⟨f, fun current' baseline' hc hb => ?_⟩
    have ha' := (h.accepted hc hb).2 ha
    rw [comparePeriods_iff, List.forall₂_map_right_iff, List.forall₂_same]
    refine ⟨ha'.baseline_hashable, fun row hr => ⟨ha'.current_hashable row hr, ?_⟩⟩
    rw [compareRow_congr (h.prior hb (hc.mem_iff.1 hr))]
    exact hf row (hc.mem_iff.1 hr)
  · left
    intro current' baseline' hc hb
    cases hx : comparePeriods c configuration (some current') (some baseline') with
    | error e => exact ⟨e, rfl⟩
    | ok rows => exact absurd ((h.accepted hc hb).1 (accepted_iff.2 ⟨rows, hx⟩)) ha

theorem Rejected.not_accepted (h : Rejected c configuration current baseline)
    (hc : current'.Perm current) (hb : baseline'.Perm baseline) :
    ¬Accepted c configuration current' baseline' := by
  intro ha
  rcases h with ⟨r, hr | hr, hn⟩ | ⟨row, hr, hne, hall⟩
  · exact hn (ha.baseline_hashable r (hb.mem_iff.2 hr))
  · exact hn (ha.current_hashable r (hc.mem_iff.2 hr))
  · have hperm : (under c configuration.keys baseline' (row.key configuration.keys)).Perm _ :=
      under_perm hb (row.key configuration.keys)
    cases hp : priorOf c configuration.keys baseline' row with
    | none =>
      have hnil := List.getLast?_eq_none_iff.1 hp
      rw [hnil] at hperm
      exact hne hperm.symm.eq_nil
    | some b =>
      obtain ⟨row', hr', hs, hover⟩ := hall b (hperm.mem_iff.1 (mem_of_priorOf hp))
      have hprior : priorOf c configuration.keys baseline' row' = some b := by
        rw [priorOf, under_congr hs]
        exact hp
      have hok := ha.floats row' (hc.mem_iff.2 hr')
      rw [hprior] at hok
      exact hok hover

theorem Rejected.orderFree (h : Rejected c configuration current baseline) :
    OrderFree c configuration current baseline := by
  left
  intro current' baseline' hc hb
  cases hx : comparePeriods c configuration (some current') (some baseline') with
  | error e => exact ⟨e, rfl⟩
  | ok rows => exact absurd (accepted_iff.2 ⟨rows, hx⟩) (h.not_accepted hc hb)

/-- Unless all orders are rejected, one is accepted: that with the rows that can be compared
    last. -/
theorem exists_accepted (h : ¬Rejected c configuration current baseline) :
    ∃ baseline' : List (Row V), baseline'.Perm baseline ∧
      Accepted c configuration current baseline' := by
  classical
  have hhash : ∀ r, r ∈ baseline ∨ r ∈ current → c.Hashable (r.key configuration.keys) := by
    intro r hr
    by_contra hn
    exact h (.inl ⟨r, hr, hn⟩)
  let fits (b : Row V) : Prop := ∀ row ∈ current,
    c.sameKey (row.key configuration.keys) (b.key configuration.keys) = true →
      ¬Overflows c (row.get configuration.metric) (b.get configuration.metric)
  have hperm : (baseline.filter (fun b => !fits b) ++ baseline.filter fun b => fits b).Perm
      baseline :=
    List.perm_append_comm.trans (List.filter_append_perm (fun b => decide (fits b)) baseline)
  refine ⟨_, hperm, fun r hr => hhash r (.inl (hperm.mem_iff.1 hr)), fun r hr => hhash r (.inr hr),
    fun row hr => ?_⟩
  rw [priorOf, under_append]
  -- the last row with the key is one that fits, if there is any row with the key
  cases hlast : (under c configuration.keys (baseline.filter fun b => fits b)
      (row.key configuration.keys)).getLast? with
  | some b =>
    rw [List.getLast?_append, hlast, Option.some_or]
    obtain ⟨hb, hs⟩ := List.mem_filter.1 (List.mem_of_getLast? hlast)
    exact of_decide_eq_true (List.mem_filter.1 hb).2 row hr (Cells.sameKey_equivalence.symm hs)
  | none =>
    have hnone : under c configuration.keys baseline (row.key configuration.keys) = [] := by
      by_contra hne
      refine h (.inr ⟨row, hr, hne, fun b hb => ?_⟩)
      obtain ⟨hb, hs⟩ := List.mem_filter.1 hb
      by_contra hn
      have hfit : b ∈ under c configuration.keys (baseline.filter fun b => fits b)
          (row.key configuration.keys) := by
        refine List.mem_filter.2 ⟨List.mem_filter.2 ⟨hb, decide_eq_true fun row' hr' hs' ho => ?_⟩, hs⟩
        exact hn ⟨row', hr', Cells.sameKey_equivalence.trans hs' hs, ho⟩
      rw [List.getLast?_eq_none_iff.1 hlast] at hfit
      cases hfit
    have hnil : (under c configuration.keys _ (row.key configuration.keys)).Perm _ :=
      under_perm hperm (row.key configuration.keys)
    rw [hnone, under_append] at hnil
    rw [hnil.eq_nil]
    rintro ⟨e, he⟩
    unfold floats at he
    cases hx : (row.get configuration.metric).bind c.number with
    | none => rw [hx] at he; cases he
    | some x => rw [hx] at he; cases he

/-- The rows of an order that does not matter show the metric of every prior. -/
theorem OrderFree.oneMetric {f : Row V → Row V}
    (h : ∀ current' baseline' : List (Row V), current'.Perm current → baseline'.Perm baseline →
      comparePeriods c configuration (some current') (some baseline') = .ok (current'.map f)) :
    OneMetric c configuration current baseline := by
  -- a row with the key is the prior of the order in which it is the last
  have hlast : ∀ row ∈ current,
      ∀ b ∈ under c configuration.keys baseline (row.key configuration.keys),
      (f row).get ("baseline_" ++ configuration.metric) = b.get configuration.metric := by
    intro row hr b hb
    obtain ⟨hb, hs⟩ := List.mem_filter.1 hb
    obtain ⟨s, t, rfl⟩ := List.append_of_mem hb
    have hp : (s ++ t ++ [b]).Perm (s ++ b :: t) := by
      rw [List.append_assoc]
      exact (List.perm_append_singleton b t).append_left s
    have hall := (comparePeriods_iff.1 (h current _ (List.Perm.refl _) hp)).2
    rw [List.forall₂_map_right_iff, List.forall₂_same] at hall
    have hprior : priorOf c configuration.keys (s ++ t ++ [b]) row = some b := by
      rw [priorOf, under_append]
      simp [under, hs]
    have hrow := compareRow_baseline (hall row hr).2
    rw [hprior] at hrow
    exact hrow
  intro row hr b hb b' hb'
  rw [← hlast row hr b hb, ← hlast row hr b' hb']

end

/-- **When the order of the rows does not matter**: if the baseline rows with the key of a current
    row have one metric, or all orders are rejected. -/
theorem comparison_iff (configuration : ComparisonConfiguration) (current baseline : List (Row V)) :
    OrderFree c configuration current baseline ↔
      OneMetric c configuration current baseline ∨ Rejected c configuration current baseline := by
  constructor
  · rintro (hrejected | ⟨f, hf⟩)
    · right
      by_contra hn
      obtain ⟨baseline', hp, ha⟩ := exists_accepted hn
      obtain ⟨e, he⟩ := hrejected current baseline' (List.Perm.refl _) hp
      obtain ⟨rows, hrows⟩ := accepted_iff.1 ha
      rw [hrows] at he
      cases he
    · exact .inl (OrderFree.oneMetric hf)
  · rintro (h | h)
    · exact h.orderFree
    · exact h.orderFree

/-- Two baseline rows of one route: the last one counts. -/
theorem last_baseline_counts : ¬OrderFree Sample.numbers { metric := "revenue", keys := ["route"] }
    (Sample.revenue [(1, 10)]) (Sample.revenue [(1, 8), (1, 5)]) := by
  have hswap : (Sample.revenue [(1, 5), (1, 8)]).Perm (Sample.revenue [(1, 8), (1, 5)]) :=
    List.Perm.swap ..
  rintro (h | ⟨f, hf⟩)
  · obtain ⟨e, he⟩ := h _ _ (List.Perm.refl _) (List.Perm.refl _)
    obtain ⟨rows, hrows⟩ := exists_ok (x := comparePeriods Sample.numbers
      { metric := "revenue", keys := ["route"] } (some (Sample.revenue [(1, 10)]))
      (some (Sample.revenue [(1, 8), (1, 5)]))) (by decide +kernel)
    rw [hrows] at he
    cases he
  · have h := hf _ _ (List.Perm.refl _) (List.Perm.refl _)
    have h' := hf _ _ (List.Perm.refl _) hswap
    have heq : ((comparePeriods Sample.numbers { metric := "revenue", keys := ["route"] }
          (some (Sample.revenue [(1, 10)])) (some (Sample.revenue [(1, 8), (1, 5)]))).toOption.map
          fun rows => rows.map (·.get "baseline_revenue")) =
        (comparePeriods Sample.numbers { metric := "revenue", keys := ["route"] }
          (some (Sample.revenue [(1, 10)])) (some (Sample.revenue [(1, 5), (1, 8)]))).toOption.map
          fun rows => rows.map (·.get "baseline_revenue") := by
      rw [h, h']
    revert heq
    decide +kernel

end TracciaRuntime.Analytics
