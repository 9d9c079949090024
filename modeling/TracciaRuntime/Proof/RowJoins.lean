/-
  The joins of the handlers.

  * `Index.get_set`: a dictionary under keys of rows;
  * `Indexes`: what the loop over the right rows makes of them, and `indexes_iff`: when it comes to
    its end;
  * `joinResults_iff`: a join returns the pairs of the nested loop, as rows;
  * `enforced_iff`: when the declared relationship is enforced;
  * `preserved_iff`: when the columns of the left rows are kept.
-/
import TracciaRuntime.Analytics.Handlers

namespace TracciaRuntime.Analytics

open Py

variable {V F α : Type} {c : Cells V F}

theorem require_eq_error {ε : Type} {condition : Prop} [Decidable condition] {e e' : ε} :
    require condition e = .error e' ↔ ¬condition ∧ e = e' := by
  unfold require
  split <;> simp_all

theorem exists_foldlM {σ β ε : Type} {f : σ → β → Except ε σ} {l : List β}
    (h : ∀ s, ∀ b ∈ l, ∃ s', f s b = .ok s') (s : σ) : ∃ s', l.foldlM f s = .ok s' := by
  induction l generalizing s with
  | nil => exact ⟨s, rfl⟩
  | cons b l ih =>
    obtain ⟨s₁, h₁⟩ := h s b List.mem_cons_self
    obtain ⟨s', h'⟩ := ih (fun s b hb => h s b (List.mem_cons_of_mem _ hb)) s₁
    exact ⟨s', by rw [List.foldlM_cons, h₁]; exact h'⟩

theorem foldlM_eq_error {σ β ε : Type} {f : σ → β → Except ε σ} {l : List β} {s : σ} {e : ε}
    (h : l.foldlM f s = .error e) : ∃ s', ∃ b ∈ l, f s' b = .error e := by
  induction l generalizing s with
  | nil => cases h
  | cons b l ih =>
    rw [List.foldlM_cons] at h
    rcases bind_eq_error.1 h with h | ⟨s₁, -, h⟩
    · exact ⟨s, b, List.mem_cons_self, h⟩
    · obtain ⟨s', b', hb', h'⟩ := ih h
      exact ⟨s', b', List.mem_cons_of_mem _ hb', h'⟩

namespace Row

theorem get_without (r : Row V) (keys : List String) (column : String) :
    (r.without keys).cells.get column = if column ∈ keys then none else r.cells.get column := by
  change Dict.get (r.cells.filter fun i => i.1 ∉ keys) column = _
  generalize r.cells = cells
  induction cells with
  | nil => simp [Dict.get]
  | cons i cells ih =>
    obtain ⟨k, v⟩ := i
    by_cases hk : k ∈ keys
    · rw [List.filter_cons_of_neg (by simpa using hk), ih, Dict.get]
      by_cases hc : k = column
      · rw [← hc, if_pos hk, if_pos hk]
      · rw [if_neg hc]
    · rw [List.filter_cons_of_pos (by simpa using hk), Dict.get, ih, Dict.get]
      by_cases hc : k = column
      · rw [if_pos hc, if_pos hc, ← hc, if_neg hk]
      · rw [if_neg hc, if_neg hc]

end Row

/-! ## Keys -/

namespace Cells

theorem sameCell_refl (x : Option V) : c.sameCell x x = true := by
  cases x with
  | none => rfl
  | some v => exact c.same_equivalence.refl v

theorem sameCell_symm {x y : Option V} (h : c.sameCell x y = true) : c.sameCell y x = true := by
  cases x <;> cases y <;> first | rfl | exact absurd h Bool.false_ne_true | skip
  exact c.same_equivalence.symm h

theorem sameCell_trans {x y z : Option V} (h : c.sameCell x y = true)
    (h' : c.sameCell y z = true) : c.sameCell x z = true := by
  cases x <;> cases y <;> cases z <;>
    first | rfl | exact absurd h Bool.false_ne_true | exact absurd h' Bool.false_ne_true | skip
  exact c.same_equivalence.trans h h'

theorem sameKey_iff {k k' : List (Option V)} :
    c.sameKey k k' = true ↔ List.Forall₂ (fun x y => c.sameCell x y = true) k k' := by
  induction k generalizing k' with
  | nil => cases k' <;> simp [sameKey]
  | cons x k ih => cases k' <;> simp [sameKey, ih]

theorem sameKey_equivalence : Equivalence fun k k' => c.sameKey k k' = true where
  refl k := sameKey_iff.2 (List.forall₂_same.2 fun x _ => sameCell_refl x)
  symm h := sameKey_iff.2 ((sameKey_iff.1 h).flip.imp fun _ _ => sameCell_symm)
  trans {k k' k''} h h' := by
    induction k generalizing k' k'' with
    | nil => cases k' <;> cases k'' <;> simp_all [sameKey]
    | cons x k ih =>
      cases k' <;> cases k'' <;> simp_all [sameKey]
      exact ⟨sameCell_trans h.1 h'.1, ih h.2 h'.2⟩

/-- Equal keys are equal to the same keys. -/
theorem sameKey_congr {k k' : List (Option V)} (h : c.sameKey k k' = true)
    (k'' : List (Option V)) : c.sameKey k'' k = c.sameKey k'' k' :=
  Bool.eq_iff_iff.2 ⟨fun h' => sameKey_equivalence.trans h' h,
    fun h' => sameKey_equivalence.trans h' (sameKey_equivalence.symm h)⟩

theorem sameKey_comm (k k' : List (Option V)) : c.sameKey k k' = c.sameKey k' k :=
  Bool.eq_iff_iff.2 ⟨sameKey_equivalence.symm, sameKey_equivalence.symm⟩

/-- `hash(key)` does not raise. -/
def Hashable (c : Cells V F) (key : List (Option V)) : Prop :=
  ∀ v, some v ∈ key → c.hashable v = true

theorem hash_eq_ok {key : List (Option V)} {u : Unit} : c.hash key = .ok u ↔ c.Hashable key := by
  unfold hash
  rw [forM_eq_ok]
  constructor
  · intro h v hv
    by_contra hn
    have hx := h _ hv
    dsimp only at hx
    rw [if_neg hn] at hx
    cases hx
  · intro h x hx
    cases x with
    | none => rfl
    | some v => simp [h v hx]

theorem hash_eq_error {key : List (Option V)} {e : Raised} (h : c.hash key = .error e) :
    ∃ m, e = .other "TypeError" m := by
  induction key with
  | nil => cases h
  | cons x key ih =>
    rcases bind_eq_error.1 (show (_ >>= fun _ => c.hash key) = _ from h) with h | ⟨u, -, h⟩
    · cases x with
      | none => cases h
      | some v =>
        dsimp only at h
        split at h
        · cases h
        · cases h
          exact ⟨_, rfl⟩
    · exact ih h

end Cells

namespace Index

theorem get_set (index : Index V α) (k k' : List (Option V)) (a : α) :
    (index.set c k a).get c k' = if c.sameKey k k' then some a else index.get c k' := by
  induction index with
  | nil => rfl
  | cons e index ih =>
    unfold set
    split
    · rename_i he
      simp only [get]
      rw [Cells.sameKey_comm e.1 k', Cells.sameKey_congr he, Cells.sameKey_comm k' k]
      split <;> rfl
    · rename_i he
      simp only [get, ih]
      split
      · rename_i he'
        rw [if_neg]
        intro hk
        exact he (Cells.sameKey_equivalence.trans he' (Cells.sameKey_equivalence.symm hk))
      · rfl

theorem mem_set {index : Index V α} {k : List (Option V)} {a : α}
    {e : List (Option V) × α} (h : e ∈ index.set c k a) :
    c.sameKey e.1 k = true ∧ e.2 = a ∨ e ∈ index := by
  induction index with
  | nil =>
    cases List.mem_singleton.1 h
    exact .inl ⟨Cells.sameKey_equivalence.refl k, rfl⟩
  | cons e' index ih =>
    unfold set at h
    split at h
    · rename_i he
      rcases List.mem_cons.1 h with rfl | h
      · exact .inl ⟨he, rfl⟩
      · exact .inr (List.mem_cons_of_mem _ h)
    · rcases List.mem_cons.1 h with rfl | h
      · exact .inr List.mem_cons_self
      · exact (ih h).imp_right (List.mem_cons_of_mem _)

theorem mem_of_get {index : Index V α} {k : List (Option V)} {a : α}
    (h : index.get c k = some a) : ∃ e ∈ index, e.2 = a := by
  induction index with
  | nil => cases h
  | cons e index ih =>
    unfold get at h
    split at h
    · cases h
      exact ⟨e, List.mem_cons_self, rfl⟩
    · obtain ⟨e', he', ha⟩ := ih h
      exact ⟨e', List.mem_cons_of_mem _ he', ha⟩

end Index

/-- The rows with this key. -/
def under (c : Cells V F) (keys : List String) (rows : List (Row V)) (key : List (Option V)) :
    List (Row V) :=
  rows.filter fun r => c.sameKey (r.key keys) key

/-- No two rows share a key. -/
def Distinct (c : Cells V F) (keys : List String) (rows : List (Row V)) : Prop :=
  rows.Pairwise fun r r' => c.sameKey (r.key keys) (r'.key keys) = false

instance (keys : List String) (rows : List (Row V)) : Decidable (Distinct c keys rows) :=
  inferInstanceAs (Decidable (rows.Pairwise fun r r' => c.sameKey (r.key keys) (r'.key keys) = false))

section
variable {keys : List String} {rows : List (Row V)} {key : List (Option V)}

theorem under_append (rows' : List (Row V)) :
    under c keys (rows ++ rows') key = under c keys rows key ++ under c keys rows' key :=
  List.filter_append ..

theorem under_congr {key' : List (Option V)} (h : c.sameKey key key' = true) :
    under c keys rows key = under c keys rows key' :=
  List.filter_congr fun r _ => Cells.sameKey_congr h (r.key keys)

/-- Rows that share a key stand under it. -/
theorem not_distinct_iff : ¬Distinct c keys rows ↔ ∃ key, 1 < (under c keys rows key).length := by
  constructor
  · intro h
    induction rows with
    | nil => exact absurd List.Pairwise.nil h
    | cons r rows ih =>
      by_cases hd : Distinct c keys rows
      · have hs : ∃ r' ∈ rows, c.sameKey (r.key keys) (r'.key keys) = true := by
          by_contra hn
          refine h (List.pairwise_cons.2 ⟨fun r' hr' => Bool.eq_false_iff.2 fun hs => ?_, hd⟩)
          exact hn ⟨r', hr', hs⟩
        obtain ⟨r', hr', hs⟩ := hs
        refine ⟨r.key keys, ?_⟩
        have hr : r' ∈ under c keys rows (r.key keys) :=
          List.mem_filter.2 ⟨hr', Cells.sameKey_equivalence.symm hs⟩
        have hlen := List.length_pos_of_mem hr
        have hself : under c keys (r :: rows) (r.key keys) = r :: under c keys rows (r.key keys) :=
          List.filter_cons_of_pos (Cells.sameKey_equivalence.refl (r.key keys))
        rw [hself, List.length_cons]
        exact Nat.succ_lt_succ hlen
      · obtain ⟨key, hkey⟩ := ih hd
        exact ⟨key, hkey.trans_le (((List.sublist_cons_self r rows).filter _).length_le)⟩
  · rintro ⟨key, hkey⟩ hd
    have hp : Distinct c keys (under c keys rows key) := hd.sublist List.filter_sublist
    have hall : ∀ r ∈ under c keys rows key, c.sameKey (r.key keys) key = true :=
      fun r hr => (List.mem_filter.1 hr).2
    revert hkey hp hall
    cases under c keys rows key with
    | nil => intro hkey; exact absurd hkey (by simp)
    | cons r l =>
      cases l with
      | nil => intro hkey; exact absurd hkey (by simp)
      | cons r' l =>
        intro _ hp hall
        have hne := (List.pairwise_cons.1 hp).1 r' List.mem_cons_self
        have hr := hall r List.mem_cons_self
        have hr' := hall r' (List.mem_cons_of_mem _ List.mem_cons_self)
        exact Bool.false_ne_true (hne.symm.trans
          (Cells.sameKey_equivalence.trans hr (Cells.sameKey_equivalence.symm hr')))

end

/-! ## The index of the right rows -/

/-- What the loop over the right rows has made of them. -/
structure Indexes (c : Cells V F) (keys : List String) (rows : List (Row V))
    (index : Index V (List (Row V))) : Prop where
  hashable : ∀ r ∈ rows, c.Hashable (r.key keys)
  found : ∀ key, (index.get c key).getD [] = under c keys rows key
  entries : ∀ e ∈ index, e.2.Sublist (under c keys rows e.1)

section
variable {keys : List String} {rows left right : List (Row V)} {index : Index V (List (Row V))}

theorem Indexes.addRight {row : Row V} {index' : Index V (List (Row V))}
    (h : Indexes c keys rows index) (hadd : addRight c keys index row = .ok index') :
    Indexes c keys (rows ++ [row]) index' := by
  obtain ⟨_, hhash, hadd⟩ := bind_eq_ok.1 hadd
  cases hadd
  have hrow : ∀ key, under c keys [row] key =
      if c.sameKey (row.key keys) key then [row] else [] := fun key => by
    simp [under, List.filter_cons]
  refine ⟨fun r hr => ?_, fun key => ?_, fun e he => ?_⟩
  · rcases List.mem_append.1 hr with hr | hr
    · exact h.hashable r hr
    · rw [List.mem_singleton.1 hr]
      exact Cells.hash_eq_ok.1 hhash
  · rw [Index.get_set, under_append, hrow]
    split
    · rename_i hs
      rw [Option.getD_some, h.found, under_congr hs]
    · rw [List.append_nil, h.found]
  · rw [under_append]
    rcases Index.mem_set he with ⟨hs, ha⟩ | he
    · have hunder : under c keys rows _ = under c keys rows _ := under_congr hs
      rw [ha, h.found, hrow, if_pos (Cells.sameKey_equivalence.symm hs), ← hunder]
    · exact (h.entries e he).trans (List.sublist_append_left _ _)

theorem foldlM_addRight (h : right.foldlM (addRight c keys) [] = .ok index) :
    Indexes c keys right index :=
  foldlM_invariant (I := fun seen index => Indexes c keys seen index)
    ⟨List.forall_mem_nil _, fun _ => rfl, List.forall_mem_nil _⟩
    (fun _ _ _ _ _ hI hadd => hI.addRight hadd) h

theorem foldlM_addRight_ok (h : ∀ r ∈ right, c.Hashable (r.key keys)) :
    ∃ index, right.foldlM (addRight c keys) [] = .ok index :=
  exists_foldlM (fun index r hr =>
    ⟨Index.set c index (r.key keys) ((Index.get c index (r.key keys)).getD [] ++ [r]),
      bind_eq_ok.2 ⟨(), Cells.hash_eq_ok.2 (h r hr), rfl⟩⟩) []

theorem foldlM_addRight_error {e : Raised} (h : right.foldlM (addRight c keys) [] = .error e) :
    ∃ m, e = .other "TypeError" m := by
  obtain ⟨s, r, -, h'⟩ := foldlM_eq_error h
  rcases bind_eq_error.1 h' with h' | ⟨_, _, h'⟩
  · exact Cells.hash_eq_error h'
  · cases h'

/-- An entry with two rows is two rows that share a key. -/
theorem Indexes.shared_iff (h : Indexes c keys right index) :
    (∃ e ∈ index, 1 < e.2.length) ↔ ¬Distinct c keys right := by
  rw [not_distinct_iff]
  constructor
  · rintro ⟨e, he, hlen⟩
    exact ⟨e.1, hlen.trans_le (h.entries e he).length_le⟩
  · rintro ⟨key, hkey⟩
    rw [← h.found key] at hkey
    cases hget : index.get c key with
    | none => rw [hget] at hkey; exact absurd hkey (by simp)
    | some l =>
      rw [hget] at hkey
      obtain ⟨e, he, rfl⟩ := Index.mem_of_get hget
      exact ⟨e, he, hkey⟩

/-! ## The rows of a join -/

/-- The pairs of a left outer join, by a nested loop. -/
def outerPairs (c : Cells V F) (keys : List String) (left right : List (Row V)) :
    List (Row V × Option (Row V)) :=
  left.flatMap fun l =>
    match under c keys right (l.key keys) with
    | [] => [(l, none)]
    | found => found.map fun r => (l, some r)

/-- The row that `join_results` makes of a pair. -/
def mergedRow (keys : List String) (p : Row V × Option (Row V)) : Row V :=
  match p.2 with
  | none => p.1
  | some r => p.1.merge (r.without keys)

theorem mem_outerPairs {l r : Row V} : (l, some r) ∈ outerPairs c keys left right ↔
    l ∈ left ∧ r ∈ right ∧ c.sameKey (r.key keys) (l.key keys) = true := by
  unfold outerPairs
  rw [List.mem_flatMap]
  constructor
  · rintro ⟨l', hl', hp⟩
    split at hp
    · cases List.mem_singleton.1 hp
    · obtain ⟨r', hr', hp⟩ := List.mem_map.1 hp
      cases hp
      obtain ⟨hr, hs⟩ := List.mem_filter.1 hr'
      exact ⟨hl', hr, hs⟩
  · rintro ⟨hl, hr, hs⟩
    have hmem : r ∈ under c keys right (l.key keys) := List.mem_filter.2 ⟨hr, hs⟩
    refine ⟨l, hl, ?_⟩
    split
    · rename_i hnil
      rw [hnil] at hmem
      cases hmem
    · exact List.mem_map.2 ⟨r, hmem, rfl⟩

theorem joinRow_iff (h : Indexes c keys right index) {l : Row V} {rows : List (Row V)} :
    joinRow c keys index l = .ok rows ↔
      c.Hashable (l.key keys) ∧ rows = (outerPairs c keys [l] right).map (mergedRow keys) := by
  unfold joinRow
  rw [bind_eq_ok]
  simp only [Cells.hash_eq_ok, exists_const, h.found, outerPairs, List.flatMap_singleton]
  refine and_congr_right fun _ => ?_
  cases under c keys right (l.key keys) with
  | nil =>
    simp only [if_true, List.map_cons, List.map_nil, mergedRow]
    exact ⟨fun h => by cases h; rfl, fun h => by rw [h]; rfl⟩
  | cons r found =>
    simp only [List.cons_ne_nil, if_false, List.map_map]
    constructor
    · intro h; cases h; rfl
    · intro h; rw [h]; rfl

theorem joinRow_eq_error {l : Row V} {e : Raised} (h : joinRow c keys index l = .error e) :
    ∃ m, e = .other "TypeError" m := by
  rcases bind_eq_error.1 h with h | ⟨_, -, h⟩
  · exact Cells.hash_eq_error h
  · cases h

theorem mapM_joinRow_iff (h : Indexes c keys right index) :
    (∃ output, left.mapM (joinRow c keys index) = .ok output ∧ rows = output.flatten) ↔
      (∀ l ∈ left, c.Hashable (l.key keys)) ∧
        rows = (outerPairs c keys left right).map (mergedRow keys) := by
  induction left generalizing rows with
  | nil =>
    constructor
    · rintro ⟨output, hm, rfl⟩
      cases hm
      exact ⟨List.forall_mem_nil _, rfl⟩
    · rintro ⟨-, rfl⟩
      exact ⟨[], rfl, rfl⟩
  | cons l left ih =>
    have hcons : outerPairs c keys (l :: left) right =
        outerPairs c keys [l] right ++ outerPairs c keys left right := by
      simp [outerPairs]
    rw [hcons, List.map_append, List.forall_mem_cons]
    constructor
    · rintro ⟨output, hm, rfl⟩
      obtain ⟨_, output, hl, hleft, rfl⟩ := List.forall₂_cons_left_iff.1 (mapM_eq_ok.1 hm)
      obtain ⟨hhash, rfl⟩ := (joinRow_iff h).1 hl
      obtain ⟨hall, hrest⟩ := ih.1 ⟨output, mapM_eq_ok.2 hleft, rfl⟩
      exact ⟨⟨hhash, hall⟩, by rw [List.flatten_cons, hrest]⟩
    · rintro ⟨⟨hhash, hall⟩, rfl⟩
      obtain ⟨output, hm, hrest⟩ := ih.2 ⟨hall, rfl⟩
      refine ⟨_ :: output, mapM_eq_ok.2 (.cons ((joinRow_iff h).2 ⟨hhash, rfl⟩)
        (mapM_eq_ok.1 hm)), ?_⟩
      rw [List.flatten_cons, hrest]

/-- The relationship forbids right rows that share a key. -/
def checksRight (relationship : String) : Prop :=
  relationship = "one_to_one" ∨ relationship = "many_to_one"

variable {configuration : JoinConfiguration}

/-- **What a join returns**: the pairs of the nested loop, as rows. -/
theorem joinResults_iff : joinResults c configuration (some left) (some right) = .ok rows ↔
    configuration.keys ≠ [] ∧ (∀ r ∈ right, c.Hashable (r.key configuration.keys)) ∧
    (checksRight configuration.relationship → Distinct c configuration.keys right) ∧
    (∀ l ∈ left, c.Hashable (l.key configuration.keys)) ∧
    rows = (outerPairs c configuration.keys left right).map (mergedRow configuration.keys) := by
  unfold joinResults
  simp only [bind_eq_ok, require_eq_ok, exists_const]
  constructor
  · rintro ⟨hkeys, index, hfold, hshared, output, hm, hrows⟩
    have hI := foldlM_addRight hfold
    have hrows : rows = output.flatten := by cases hrows; rfl
    obtain ⟨hleft, hrows⟩ := (mapM_joinRow_iff hI).1 ⟨output, hm, hrows⟩
    refine ⟨hkeys, hI.hashable, fun hcheck => ?_, hleft, hrows⟩
    by_contra hd
    exact hshared ⟨hcheck, hI.shared_iff.2 hd⟩
  · rintro ⟨hkeys, hright, hdistinct, hleft, hrows⟩
    obtain ⟨index, hfold⟩ := foldlM_addRight_ok hright
    have hI := foldlM_addRight hfold
    obtain ⟨output, hm, hrows⟩ := (mapM_joinRow_iff hI).2 ⟨hleft, hrows⟩
    refine ⟨hkeys, index, hfold, fun hs => hI.shared_iff.1 hs.2 (hdistinct hs.1), output, hm, ?_⟩
    rw [hrows]
    rfl

namespace Sample

/-- Rows of numbers. -/
def numbers : Cells ℚ ℚ where
  typeName _ := "float"
  hashable _ := true
  same x y := x = y
  same_equivalence := ⟨fun _ => decide_eq_true rfl, fun h => decide_eq_true (of_decide_eq_true h).symm,
    fun h h' => decide_eq_true ((of_decide_eq_true h).trans (of_decide_eq_true h'))⟩
  less x y := x < y
  number x := some (.ok x)
  subtract x y := x - y
  divide x y := x / y
  isZero x := x = 0
  ofFloat x := x
  ofNat n := n

/-- A row with these numbers. -/
def rowOf (items : List (String × ℚ)) : Row ℚ :=
  items.foldl (fun r i => r.set i.1 (some i.2)) ⟨[], List.nodup_nil⟩

/-- Revenue by route. -/
def revenue (l : List (ℚ × ℚ)) : List (Row ℚ) :=
  l.map fun x => rowOf [("route", x.1), ("revenue", x.2)]

/-- The seats of a route. -/
def seats : List (Row ℚ) := [rowOf [("route", 1), ("seats", 2)]]

end Sample

/-! ## Relationships -/

/-- The relationship forbids left rows that share a key. -/
def checksLeft (relationship : String) : Prop :=
  relationship = "one_to_one" ∨ relationship = "one_to_many"

/-- The rows are as the relationship declares them. -/
def Declared (c : Cells V F) (configuration : JoinConfiguration) (left right : List (Row V)) :
    Prop :=
  (checksLeft configuration.relationship → Distinct c configuration.keys left) ∧
    (checksRight configuration.relationship → Distinct c configuration.keys right)

/-- **The declared relationship is enforced**: a join only succeeds for rows that are as declared,
    and others raise `ConfigurationError`. -/
def Enforced (c : Cells V F) (configuration : JoinConfiguration) (left right : List (Row V)) :
    Prop :=
  (∀ rows, joinResults c configuration (some left) (some right) = .ok rows →
    Declared c configuration left right) ∧
  (¬Declared c configuration left right →
    ∃ m, joinResults c configuration (some left) (some right) = .error (.configuration m))

theorem configuration_ne_typeError {m m' : String} :
    Raised.configuration m ≠ .other "TypeError" m' := by
  intro h
  have ht : "ConfigurationError" = "TypeError" := congrArg Raised.typeName h
  exact absurd ht (by decide)

/-- When a join raises `ConfigurationError`. -/
theorem joinResults_rejects_iff :
    (∃ m, joinResults c configuration (some left) (some right) = .error (.configuration m)) ↔
      configuration.keys = [] ∨ checksRight configuration.relationship ∧
        (∀ r ∈ right, c.Hashable (r.key configuration.keys)) ∧
        ¬Distinct c configuration.keys right := by
  constructor
  · rintro ⟨m, h⟩
    rcases bind_eq_error.1 h with h | ⟨_, -, h⟩
    · exact .inl (by simpa using (require_eq_error.1 h).1)
    rcases bind_eq_error.1 h with h | ⟨index, hfold, h⟩
    · obtain ⟨m', he⟩ := foldlM_addRight_error h
      exact absurd he configuration_ne_typeError
    have hI := foldlM_addRight hfold
    rcases bind_eq_error.1 h with h | ⟨_, -, h⟩
    · obtain ⟨hcheck, hshared⟩ := not_not.1 (require_eq_error.1 h).1
      exact .inr ⟨hcheck, hI.hashable, hI.shared_iff.1 hshared⟩
    rcases bind_eq_error.1 h with h | ⟨_, -, h⟩
    · obtain ⟨_, l, _, _, -, -, hl⟩ := mapM_eq_error.1 h
      obtain ⟨m', he⟩ := joinRow_eq_error hl
      exact absurd he configuration_ne_typeError
    · cases h
  · rintro (hkeys | ⟨hcheck, hright, hdistinct⟩)
    · exact ⟨_, bind_eq_error.2 (.inl (require_eq_error.2 ⟨fun h => h hkeys, rfl⟩))⟩
    by_cases hkeys : configuration.keys = []
    · exact ⟨_, bind_eq_error.2 (.inl (require_eq_error.2 ⟨fun h => h hkeys, rfl⟩))⟩
    obtain ⟨index, hfold⟩ := foldlM_addRight_ok hright
    have hshared := (foldlM_addRight hfold).shared_iff.2 hdistinct
    exact ⟨_, bind_eq_error.2 (.inr ⟨(), require_eq_ok.2 hkeys, bind_eq_error.2 (.inr ⟨index, hfold,
      bind_eq_error.2 (.inl (require_eq_error.2 ⟨fun h => h ⟨hcheck, hshared⟩, rfl⟩))⟩)⟩)⟩

/-- **When the declared relationship is enforced**: if right rows that must not share a key can be
    looked up, and left rows that must not share a key do so only where right rows do, too. -/
theorem enforced_iff (configuration : JoinConfiguration) (left right : List (Row V)) :
    Enforced c configuration left right ↔ configuration.keys = [] ∨
      ((checksRight configuration.relationship → ¬Distinct c configuration.keys right →
        ∀ r ∈ right, c.Hashable (r.key configuration.keys)) ∧
      (checksLeft configuration.relationship → ¬Distinct c configuration.keys left →
        checksRight configuration.relationship ∧ ¬Distinct c configuration.keys right)) := by
  constructor
  · rintro ⟨-, hreject⟩
    by_cases hkeys : configuration.keys = []
    · exact .inl hkeys
    refine .inr ⟨fun hcheck hd => ?_, fun hcheck hd => ?_⟩
    · rcases joinResults_rejects_iff.1 (hreject fun h => hd (h.2 hcheck)) with h | ⟨-, hright, -⟩
      · exact absurd h hkeys
      · exact hright
    · rcases joinResults_rejects_iff.1 (hreject fun h => hd (h.1 hcheck)) with h | ⟨hr, -, hd'⟩
      · exact absurd h hkeys
      · exact ⟨hr, hd'⟩
  · rintro (hkeys | ⟨hhash, hleft⟩)
    · exact ⟨fun rows h => absurd hkeys (joinResults_iff.1 h).1,
        fun _ => joinResults_rejects_iff.2 (.inl hkeys)⟩
    -- rows that are not as declared have right rows that must not share a key
    have hright : ¬Declared c configuration left right →
        checksRight configuration.relationship ∧ ¬Distinct c configuration.keys right := by
      intro hnd
      by_contra hn
      refine hnd ⟨fun hcheck => ?_, fun hcheck => ?_⟩
      · by_contra hd
        exact hn (hleft hcheck hd)
      · by_contra hd
        exact hn ⟨hcheck, hd⟩
    refine ⟨fun rows h => ?_, fun hnd => ?_⟩
    · by_contra hnd
      obtain ⟨hcheck, hd⟩ := hright hnd
      exact hd ((joinResults_iff.1 h).2.2.1 hcheck)
    · obtain ⟨hcheck, hd⟩ := hright hnd
      exact joinResults_rejects_iff.2 (.inr ⟨hcheck, hhash hcheck hd, hd⟩)

/-- Two rows of revenue have the seats of their one route each. -/
theorem shared_left_key : ¬Enforced Sample.numbers { keys := ["route"] }
    (Sample.revenue [(1, 10), (1, 20)]) Sample.seats := by
  rintro ⟨h, -⟩
  obtain ⟨rows, hrows⟩ := exists_ok (x := joinResults Sample.numbers { keys := ["route"] }
    (some (Sample.revenue [(1, 10), (1, 20)])) (some Sample.seats)) (by decide +kernel)
  have hd := (h rows hrows).1 (.inl rfl)
  revert hd
  decide +kernel

/-! ## Columns -/

/-- The row stands for the pair: it agrees with the left row on its columns, and has the others
    from the right row, besides the keys. -/
def Joined (keys : List String) (p : Row V × Option (Row V)) (row : Row V) : Prop :=
  match p.2 with
  | none => row = p.1
  | some r => ∀ column,
    (∀ v, p.1.cells.get column = some v → row.cells.get column = some v) ∧
    (p.1.cells.get column = none →
      row.cells.get column = if column ∈ keys then none else r.cells.get column)

/-- **The left rows are preserved**: the rows stand for the pairs of the left outer join, in the
    order of the left rows. -/
def Preserved (c : Cells V F) (keys : List String) (left right rows : List (Row V)) : Prop :=
  List.Forall₂ (Joined keys) (outerPairs c keys left right) rows

theorem joined_mergedRow_iff {p : Row V × Option (Row V)} :
    Joined keys p (mergedRow keys p) ↔ ∀ r ∈ p.2, ∀ column, column ∉ keys →
      ∀ v w, p.1.cells.get column = some v → r.cells.get column = some w → v = w := by
  obtain ⟨l, r⟩ := p
  cases r with
  | none => simp [Joined, mergedRow]
  | some r =>
    have hget : ∀ column, (l.merge (r.without keys)).cells.get column =
        (if column ∈ keys then none else r.cells.get column).or (l.cells.get column) := by
      intro column
      rw [Row.merge, Dict.get_update (r.without keys).nodup, Row.get_without]
    simp only [Joined, mergedRow, hget, Option.mem_def, Option.some.injEq, forall_eq']
    constructor
    · intro h column hc v w hv hw
      have hrow := (h column).1 v hv
      rw [if_neg hc, hw] at hrow
      exact (Option.some.inj hrow).symm
    · intro h column
      refine ⟨fun v hv => ?_, fun hl => by rw [hl, Option.or_none]⟩
      split
      · exact hv
      · rename_i hc
        cases hw : r.cells.get column with
        | none => exact hv
        | some w => rw [h column hc v w hv hw]; rfl

/-- **When the left rows are preserved**: if matching rows agree on the columns that both have. -/
theorem preserved_iff (configuration : JoinConfiguration) (left right rows : List (Row V))
    (h : joinResults c configuration (some left) (some right) = .ok rows) :
    Preserved c configuration.keys left right rows ↔
      ∀ l ∈ left, ∀ r ∈ right,
        c.sameKey (r.key configuration.keys) (l.key configuration.keys) = true →
        ∀ column, column ∉ configuration.keys → ∀ v w, l.cells.get column = some v →
          r.cells.get column = some w → v = w := by
  obtain ⟨-, -, -, -, rfl⟩ := joinResults_iff.1 h
  unfold Preserved
  rw [List.forall₂_map_right_iff, List.forall₂_same]
  simp only [joined_mergedRow_iff]
  constructor
  · intro h l hl r hr hs
    exact h (l, some r) (mem_outerPairs.2 ⟨hl, hr, hs⟩) r rfl
  · rintro h ⟨l, r'⟩ hp r rfl
    obtain ⟨hl, hr, hs⟩ := mem_outerPairs.1 hp
    exact h l hl r hr hs

theorem preserved_iff_sample : ∃ rows, joinResults Sample.numbers { keys := ["route"] }
      (some (Sample.revenue [(1, 10)])) (some Sample.seats) = .ok rows ∧
    (Preserved Sample.numbers ["route"] (Sample.revenue [(1, 10)]) Sample.seats rows ↔
      ∀ l ∈ Sample.revenue [(1, 10)], ∀ r ∈ Sample.seats,
        Sample.numbers.sameKey (r.key ["route"]) (l.key ["route"]) = true →
        ∀ column, column ∉ ["route"] → ∀ v w, l.cells.get column = some v →
          r.cells.get column = some w → v = w) := by
  obtain ⟨rows, hrows⟩ := exists_ok (x := joinResults Sample.numbers { keys := ["route"] }
    (some (Sample.revenue [(1, 10)])) (some Sample.seats)) (by decide +kernel)
  exact ⟨rows, hrows, preserved_iff { keys := ["route"] } _ _ _ hrows⟩

/-- The revenue of another period takes the place of the left one. -/
theorem revenue_replaced : ∃ rows, joinResults Sample.numbers { keys := ["route"] }
      (some (Sample.revenue [(1, 10)])) (some (Sample.revenue [(1, 99)])) = .ok rows ∧
    ¬Preserved Sample.numbers ["route"] (Sample.revenue [(1, 10)]) (Sample.revenue [(1, 99)])
      rows := by
  obtain ⟨rows, hrows⟩ := exists_ok (x := joinResults Sample.numbers { keys := ["route"] }
    (some (Sample.revenue [(1, 10)])) (some (Sample.revenue [(1, 99)]))) (by decide +kernel)
  refine ⟨rows, hrows, fun h => ?_⟩
  obtain ⟨-, -, -, -, rfl⟩ := joinResults_iff.1 hrows
  unfold Preserved at h
  rw [List.forall₂_map_right_iff, List.forall₂_same] at h
  have hp : (Sample.rowOf [("route", 1), ("revenue", 10)],
      some (Sample.rowOf [("route", 1), ("revenue", 99)])) ∈ outerPairs Sample.numbers ["route"]
        (Sample.revenue [(1, 10)]) (Sample.revenue [(1, 99)]) :=
    mem_outerPairs.2 ⟨List.mem_cons_self, List.mem_cons_self, by decide +kernel⟩
  have hv : (some 10 : Option ℚ) = some 99 :=
    joined_mergedRow_iff.1 (h _ hp) _ rfl "revenue" (by decide) _ _ rfl rfl
  revert hv
  decide +kernel

end

end TracciaRuntime.Analytics
