/-
  A store that holds the parts of the current version of each of a number of objects.

  A batch brings new versions: what is no longer wanted is dropped from the store, and the parts
  of the new versions are added.  `exact_bring_iff` says when the store is right afterwards.
-/
import Mathlib.Data.List.Nodup
import Mathlib.Data.List.Basic

namespace Versions

variable {κ δ α : Type} [DecidableEq κ] {keyOf : δ → κ} {owner : α → κ} {parts : δ → List α}

/-- The current version of each object, after a list of new ones. -/
def bring (keyOf : δ → κ) (current : κ → Option δ) (new : List δ) : κ → Option δ :=
  new.foldl (fun c d => Function.update c (keyOf d) (some d)) current

theorem bring_apply (current : κ → Option δ) (new : List δ) (k : κ) :
    bring keyOf current new k = ((new.filter fun d => keyOf d = k).getLast?).or (current k) := by
  induction new generalizing current with
  | nil => rfl
  | cons d new ih =>
    rw [show bring keyOf current (d :: new) =
      bring keyOf (Function.update current (keyOf d) (some d)) new from rfl, ih]
    by_cases hk : keyOf d = k
    · subst hk
      cases hnew : new.filter fun d' => keyOf d' = keyOf d with
      | nil => simp [hnew]
      | cons d' ds => simp [hnew, List.getLast?_cons]
    · simp [hk, Function.update_of_ne (Ne.symm hk)]

/-- The items of each object are the parts of its current version. -/
def Exact (owner : α → κ) (parts : δ → List α) (items : List α) (current : κ → Option δ) : Prop :=
  ∀ k, items.filter (fun x => owner x = k) = ((current k).map parts).getD []

/-- All versions of an object before its last one have no parts. -/
def LastOnly (keyOf : δ → κ) (parts : δ → List α) (new : List δ) : Prop :=
  ∀ k, ∀ d ∈ (new.filter fun d => keyOf d = k).dropLast, parts d = []

theorem exact_nil : Exact owner parts [] fun _ => none := fun _ => rfl

theorem filter_flatMap (hparts : ∀ d, ∀ x ∈ parts d, owner x = keyOf d) (new : List δ) (k : κ) :
    (new.flatMap parts).filter (fun x => owner x = k) =
      (new.filter fun d => keyOf d = k).flatMap parts := by
  induction new with
  | nil => rfl
  | cons d new ih =>
    rw [List.flatMap_cons, List.filter_append, ih]
    by_cases hk : keyOf d = k
    · have hall : (parts d).filter (fun x => owner x = k) = parts d :=
        List.filter_eq_self.2 fun x hx => by simp [hparts d x hx, hk]
      simp [hk, hall]
    · have hnone : (parts d).filter (fun x => owner x = k) = [] :=
        List.filter_eq_nil_iff.2 fun x hx => by simp [hparts d x hx, hk]
      simp [hk, hnone]

/-- The items of one object after a batch. -/
theorem exact_bring_at (hparts : ∀ d, ∀ x ∈ parts d, owner x = keyOf d) {items : List α}
    {current : κ → Option δ} (h : Exact owner parts items current) (keep : α → Bool)
    (new : List δ) (k : κ) :
    (items.filter keep ++ new.flatMap parts).filter (fun x => owner x = k) =
        ((bring keyOf current new k).map parts).getD [] ↔
      (∀ d ∈ (new.filter fun d => keyOf d = k).dropLast, parts d = []) ∧
        ∀ x ∈ items, owner x = k → (keep x = true ↔ ∀ d ∈ new, keyOf d ≠ k) := by
  rw [List.filter_append, filter_flatMap hparts, bring_apply, List.filter_comm]
  rcases List.eq_nil_or_concat (new.filter fun d => keyOf d = k) with hvs | ⟨vs, d, hvs⟩
  · -- no version in the batch: the items stay
    have hno : ∀ d ∈ new, keyOf d ≠ k := by simpa [List.filter_eq_nil_iff] using hvs
    rw [hvs]
    simp only [List.flatMap_nil, List.append_nil, List.getLast?_nil, Option.none_or,
      List.dropLast_nil, List.not_mem_nil, false_implies, implies_true, true_and]
    rw [← h k, List.filter_eq_self]
    simp only [List.mem_filter, decide_eq_true_eq, and_imp]
    exact forall₃_congr fun x _ _ => ⟨fun hx => ⟨fun _ => hno, fun _ => hx⟩, fun hx => hx.2 hno⟩
  · -- the last version takes the place of the items and of the versions before it
    have hd : d ∈ new ∧ keyOf d = k := by
      have hmem : d ∈ new.filter fun d => keyOf d = k := by rw [hvs]; simp
      simpa using hmem
    have hnot : ¬ ∀ d ∈ new, keyOf d ≠ k := fun hno => hno d hd.1 hd.2
    rw [hvs, List.concat_eq_append, List.getLast?_append, List.dropLast_concat,
      List.flatMap_append, ← List.append_assoc]
    simp only [List.getLast?_singleton, Option.some_or, Option.map_some, Option.getD_some,
      List.flatMap_cons, List.flatMap_nil, List.append_nil, List.append_left_eq_self,
      List.append_eq_nil_iff, List.filter_eq_nil_iff, List.mem_filter, List.flatMap_eq_nil_iff,
      decide_eq_true_eq, and_imp, hnot, iff_false]
    exact and_comm

/-- **A batch of new versions.** The store is right exactly if only the last version of each
    object has parts, and what stays are the items of the objects without a new version. -/
theorem exact_bring_iff (hparts : ∀ d, ∀ x ∈ parts d, owner x = keyOf d) {items : List α}
    {current : κ → Option δ} (h : Exact owner parts items current) (keep : α → Bool)
    (new : List δ) :
    Exact owner parts (items.filter keep ++ new.flatMap parts) (bring keyOf current new) ↔
      LastOnly keyOf parts new ∧
        ∀ x ∈ items, keep x = true ↔ ∀ d ∈ new, keyOf d ≠ owner x := by
  rw [Exact, LastOnly]
  simp only [exact_bring_at hparts h keep new]
  rw [forall_and]
  refine and_congr_right fun _ => ⟨fun hk x hx => hk _ x hx rfl, fun hk k x hx hxk => ?_⟩
  rw [hk x hx, hxk]

/-- **A deletion.** The store is right exactly if what stays are the items of the others. -/
theorem exact_delete_iff {items : List α} {current : κ → Option δ}
    (h : Exact owner parts items current) (keep : α → Bool) (k : κ) :
    Exact owner parts (items.filter keep) (Function.update current k none) ↔
      ∀ x ∈ items, keep x = true ↔ owner x ≠ k := by
  have hat : ∀ k', (items.filter keep).filter (fun x => owner x = k') =
      ((Function.update current k none k').map parts).getD [] ↔
        ∀ x ∈ items, owner x = k' → (keep x = true ↔ k' ≠ k) := by
    intro k'
    rw [List.filter_comm]
    by_cases hk : k' = k
    · subst hk
      simp only [Function.update_self, Option.map_none, Option.getD_none, List.filter_eq_nil_iff,
        List.mem_filter, decide_eq_true_eq, and_imp, ne_eq, not_true_eq_false, iff_false]
    · rw [Function.update_of_ne hk, ← h k', List.filter_eq_self]
      simp [hk]
  rw [Exact]
  simp only [hat]
  exact ⟨fun hk x hx => hk _ x hx rfl, fun hk k' x hx hxk => by rw [hk x hx, hxk]⟩

/-- Items of the same object have different names if its parts have, and so have those of
    different objects that never share a name. -/
theorem Exact.nodup {β : Type} {items : List α} {current : κ → Option δ}
    (h : Exact owner parts items current) {name : α → β}
    (hname : ∀ d, ((parts d).map name).Nodup) (shown : α → Bool)
    (hapart : ∀ x ∈ items, ∀ y ∈ items, shown x = true → shown y = true → name x = name y →
      owner x = owner y) : ((items.filter shown).map name).Nodup := by
  rw [List.Nodup, List.pairwise_map, List.pairwise_iff_forall_sublist]
  intro x y hxy heq
  have hmem : ∀ z ∈ [x, y], z ∈ items ∧ shown z = true := fun z hz => by
    simpa using hxy.subset hz
  obtain ⟨hx, hxs⟩ := hmem x (by simp)
  obtain ⟨hy, hys⟩ := hmem y (by simp)
  have howner : owner x = owner y := hapart x hx y hy hxs hys heq
  -- both are parts of one version
  have hsub : [x, y].Sublist (items.filter fun z => owner z = owner x) := by
    have hfilter := (hxy.trans List.filter_sublist).filter fun z => owner z = owner x
    rwa [List.filter_eq_self.2 (by simp [howner])] at hfilter
  rw [h] at hsub
  cases hc : current (owner x) with
  | none =>
    rw [hc] at hsub
    cases hsub
  | some d =>
    rw [hc] at hsub
    have hnodup := List.pairwise_map.1 (hname d)
    exact List.pairwise_iff_forall_sublist.1 hnodup hsub heq

/-! ## Histories -/

/-- If a law that holds before a step tells when the step is good, and a good step keeps it, then
    the steps of a history are all good exactly if each of them is as told. -/
theorem history_iff {σ ι : Type} {step : σ → ι → σ} (Law : σ → Prop) {Good Told : σ → ι → Prop}
    (hgood : ∀ s c, Law s → (Good s c ↔ Told s c)) (hstep : ∀ s c, Good s c → Law (step s c))
    {s : σ} (hs : Law s) (calls : List ι) :
    (∀ pre c, pre ++ [c] <+: calls → Good (pre.foldl step s) c) ↔
      ∀ pre c, pre ++ [c] <+: calls → Told (pre.foldl step s) c := by
  induction calls generalizing s with
  | nil => simp
  | cons c calls ih =>
    have hsplit : ∀ P : σ → ι → Prop,
        (∀ pre c', pre ++ [c'] <+: c :: calls → P (pre.foldl step s) c') ↔
          P s c ∧ ∀ pre c', pre ++ [c'] <+: calls → P (pre.foldl step (step s c)) c' := by
      intro P
      constructor
      · intro h
        exact ⟨h [] c (by simp), fun pre c' hpre => h (c :: pre) c' (by simpa using hpre)⟩
      · rintro ⟨h, ht⟩ pre c' hpre
        cases pre with
        | nil =>
          obtain ⟨rfl, -⟩ := List.cons_prefix_cons.1 hpre
          exact h
        | cons c₀ pre =>
          obtain ⟨rfl, hpre'⟩ := List.cons_prefix_cons.1 hpre
          exact ht pre c' hpre'
    rw [hsplit Good, hsplit Told, hgood s c hs]
    refine and_congr_right fun htold => ?_
    exact ih (hstep s c ((hgood s c hs).2 htold))

end Versions
