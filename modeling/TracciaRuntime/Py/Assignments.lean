/-
  Assignments at paths of nested dictionaries.

  * `store`: an assignment makes the dictionaries on the way to its key; `Writes`: what it
    changes, and `store_isOk`: when it raises nothing;
  * `Agree`: where the paths of two assignments meet, both say the same; `Reads`: a dictionary
    holds what the assignments say, and nothing else;
  * `storeAll_reads`: assignments that agree can be made in any order.
-/
import TracciaRuntime.Py.Nested

namespace Py

/-- `cursor.setdefault` (`attribute`), or `cursor[key] = value` (`type`), on an object that is
    no dictionary. -/
inductive StoreError (L : Type) where
  | attribute (cursor : L)
  | type (cursor : L)

/-- A value to be stored at a path of at least one key. -/
structure Assignment (K L : Type) where
  first : K
  rest : List K
  value : Tree K L

namespace Tree
variable {K L : Type} [DecidableEq K]

/-- Follows the keys with `setdefault`, and assigns the value under the last one. -/
def store (value : Tree K L) : K → List K → Dict K (Tree K L) →
    Except (StoreError L) (Dict K (Tree K L))
  | key, [], cursor => .ok (cursor.set key value)
  | key, next :: rest, cursor =>
    match (cursor.get key).getD (dict []) with
    | dict child => do
      let child ← store value next rest child
      .ok (cursor.set key (dict child))
    | leaf x => .error (if rest = [] then .type x else .attribute x)

/-- Storing `value` at `path` made `t'` of `t`. -/
structure Writes (path : List K) (value t t' : Tree K L) : Prop where
  at_ : ∀ r, t'.at? (path ++ r) = value.at? r
  above : ∀ x, x <+: path → x ≠ path → t'.at? x = some .dict
  beside : ∀ x, ¬x <+: path → ¬path <+: x → t'.at? x = t.at? x

theorem store_cons {value : Tree K L} {key next : K} {rest : List K} {cursor d : Dict K (Tree K L)}
    (h : store value key (next :: rest) cursor = .ok d) :
    ∃ child child', (cursor.get key).getD (dict []) = dict child ∧
      store value next rest child = .ok child' ∧ d = cursor.set key (dict child') := by
  simp only [store] at h
  split at h
  · rename_i child hchild
    cases hs : store value next rest child with
    | error e => simp [hs, bind, Except.bind] at h
    | ok child' =>
      simp only [hs, bind, Except.bind, Except.ok.injEq] at h
      exact ⟨child, child', hchild, hs, h.symm⟩
  · cases h

/-- What stands below a key is what stands in the dictionary under it. -/
theorem at?_getD {cursor child : Dict K (Tree K L)} {key : K}
    (h : (cursor.get key).getD (dict []) = dict child) {x : List K} (hx : x ≠ []) :
    at? (key :: x) (dict cursor) = at? x (dict child) := by
  rw [at?_cons_dict]
  cases hk : cursor.get key with
  | none =>
    obtain ⟨k, x, rfl⟩ := List.exists_cons_of_ne_nil hx
    simp only [hk, Option.getD_none, dict.injEq] at h
    subst h
    rfl
  | some t =>
    simp only [hk, Option.getD_some] at h
    rw [h, Option.bind_some]

theorem store_writes {value : Tree K L} {key : K} {rest : List K} {cursor d : Dict K (Tree K L)}
    (h : store value key rest cursor = .ok d) :
    Writes (key :: rest) value (dict cursor) (dict d) := by
  induction rest generalizing key cursor d with
  | nil =>
    simp only [store, Except.ok.injEq] at h
    subst h
    refine ⟨fun r => by simp, fun x hx hne => ?_, fun x hx hb => ?_⟩
    · cases x with
      | nil => rfl
      | cons k x => simp_all
    · cases x with
      | nil => exact absurd List.nil_prefix hx
      | cons k x =>
        have hk : k ≠ key := by rintro rfl; exact hb (by simp)
        rw [at?_cons_dict, at?_cons_dict, Dict.get_set_ne hk]
  | cons next rest ih =>
    obtain ⟨child, child', hchild, hs, rfl⟩ := store_cons h
    have w := ih hs
    refine ⟨fun r => ?_, fun x hx hne => ?_, fun x hx hb => ?_⟩
    · rw [List.cons_append, at?_cons_dict, Dict.get_set_self, Option.bind_some, w.at_]
    · cases x with
      | nil => rfl
      | cons k x =>
        obtain ⟨rfl, hx'⟩ := List.cons_prefix_cons.1 hx
        rw [at?_cons_dict, Dict.get_set_self, Option.bind_some]
        exact w.above x hx' fun he => hne (by rw [he])
    · cases x with
      | nil => exact absurd List.nil_prefix hx
      | cons k x =>
        by_cases hk : k = key
        · subst hk
          have hx' : ¬x <+: next :: rest := fun hp => hx (List.cons_prefix_cons.2 ⟨rfl, hp⟩)
          have hb' : ¬next :: rest <+: x := fun hp => hb (List.cons_prefix_cons.2 ⟨rfl, hp⟩)
          rw [at?_getD hchild (by rintro rfl; exact hx' List.nil_prefix), at?_cons_dict,
            Dict.get_set_self, Option.bind_some, w.beside x hx' hb']
        · rw [at?_cons_dict, at?_cons_dict, Dict.get_set_ne hk]

/-- An assignment raises nothing if no object on the way to its key is a leaf. -/
theorem store_isOk {value : Tree K L} {key : K} {rest : List K} {cursor : Dict K (Tree K L)}
    (h : ∀ x r l, key :: rest = x ++ r → r ≠ [] → at? x (dict cursor) ≠ some (.leaf l)) :
    ∃ d, store value key rest cursor = .ok d := by
  induction rest generalizing key cursor with
  | nil => exact ⟨_, rfl⟩
  | cons next rest ih =>
    simp only [store]
    cases hc : (cursor.get key).getD (dict []) with
    | leaf l =>
      have hk : cursor.get key = some (leaf l) := by
        cases hk : cursor.get key with
        | none => simp [hk] at hc
        | some t => simpa [hk] using hc
      exact absurd (by rw [at?_cons_dict, hk]; rfl) (h [key] (next :: rest) l rfl (by simp))
    | dict child =>
      have hchild : ∀ x r l, next :: rest = x ++ r → r ≠ [] →
          at? x (dict child) ≠ some (.leaf l) := by
        intro x r l he hr hl
        cases x with
        | nil => cases hl
        | cons k x =>
          refine h (key :: k :: x) r l (by rw [List.cons_append, he]) hr ?_
          rw [at?_getD hc (by simp), hl]
      obtain ⟨child', hs⟩ := ih hchild
      exact ⟨cursor.set key (dict child'), by simp only [hs, bind, Except.bind]⟩

/-- Assigning keeps the keys of each dictionary distinct. -/
theorem store_ok {value : Tree K L} (hv : value.Ok) {key : K} {rest : List K}
    {cursor d : Dict K (Tree K L)} (hc : (dict cursor).Ok)
    (h : store value key rest cursor = .ok d) : (dict d).Ok := by
  have set_ok : ∀ {d : Dict K (Tree K L)} (k : K) {t : Tree K L}, (dict d).Ok → t.Ok →
      (dict (d.set k t)).Ok := by
    rintro d k t (_ | ⟨_, hn, hvs⟩) ht
    refine .ofDict _ (Dict.nodup_keys_set k t hn) fun t' ht' => ?_
    rcases Dict.mem_values_set ht' with rfl | ht'
    · exact ht
    · exact hvs t' ht'
  induction rest generalizing key cursor d with
  | nil =>
    simp only [store, Except.ok.injEq] at h
    subst h
    exact set_ok key hc hv
  | cons next rest ih =>
    obtain ⟨child, child', hchild, hs, rfl⟩ := store_cons h
    have hok : (dict child).Ok := by
      cases hk : cursor.get key with
      | none =>
        simp only [hk, Option.getD_none, dict.injEq] at hchild
        subst hchild
        exact .ofDict _ List.nodup_nil (by simp [Dict.values])
      | some t =>
        simp only [hk, Option.getD_some] at hchild
        subst hchild
        exact hc.get hk
    exact set_ok key hc (ih hok hs)

end Tree

/-! ## Assignments one after the other -/

namespace Assignment
open Tree

variable {K L : Type} [DecidableEq K]

/-- The keys of the assignment. -/
def path (a : Assignment K L) : List K := a.first :: a.rest

/-- `a` made on `d`. -/
def store (a : Assignment K L) (d : Dict K (Tree K L)) :
    Except (StoreError L) (Dict K (Tree K L)) :=
  Tree.store a.value a.first a.rest d

/-- The assignments made on an empty dictionary, the first one first. -/
def storeAll (as : List (Assignment K L)) : Except (StoreError L) (Dict K (Tree K L)) :=
  as.foldlM (fun d a => a.store d) []

/-- Where the path of one assignment leads to or through that of another, the first one has
    already at its place what the other one puts there. -/
def Agree (as : List (Assignment K L)) : Prop :=
  ∀ a ∈ as, ∀ b ∈ as, ∀ r, b.path = a.path ++ r → ∀ s, a.value.at? (r ++ s) = b.value.at? s

/-- `t` holds what the assignments say, and nothing else. -/
structure Reads (as : List (Assignment K L)) (t : Tree K L) : Prop where
  under : ∀ a ∈ as, ∀ r, t.at? (a.path ++ r) = a.value.at? r
  above : ∀ x, (∀ a ∈ as, ¬a.path <+: x) → (x = [] ∨ ∃ a ∈ as, x <+: a.path) → t.at? x = some .dict
  beside : ∀ x, x ≠ [] → (∀ a ∈ as, ¬a.path <+: x) → (∀ a ∈ as, ¬x <+: a.path) → t.at? x = none

/-- What the assignments say determines the dictionary. -/
theorem Reads.same {as bs : List (Assignment K L)} {t u : Tree K L} (ht : Reads as t)
    (hu : Reads bs u) (h : ∀ a, a ∈ as ↔ a ∈ bs) : t.Same u := by
  intro x
  by_cases hx : ∃ a ∈ as, a.path <+: x
  · obtain ⟨a, ha, r, rfl⟩ := hx
    rw [ht.under a ha, hu.under a ((h a).1 ha)]
  have hx' : ∀ a ∈ as, ¬a.path <+: x := fun a ha hp => hx ⟨a, ha, hp⟩
  by_cases hup : x = [] ∨ ∃ a ∈ as, x <+: a.path
  · rw [ht.above x hx' hup, hu.above x (fun a ha => hx' a ((h a).2 ha))
      (hup.imp_right fun ⟨a, ha, hp⟩ => ⟨a, (h a).1 ha, hp⟩)]
  · obtain ⟨hne, hside⟩ := not_or.1 hup
    rw [ht.beside x hne hx' fun a ha hp => hside ⟨a, ha, hp⟩,
      hu.beside x hne (fun a ha => hx' a ((h a).2 ha)) fun a ha hp => hside ⟨a, (h a).2 ha, hp⟩]

/-- An assignment that agrees with those made raises nothing. -/
theorem Reads.store_isOk {as : List (Assignment K L)} {a : Assignment K L} {d : Dict K (Tree K L)}
    (h : Reads as (dict d)) (hag : Agree (as ++ [a])) : ∃ d', a.store d = .ok d' := by
  refine Tree.store_isOk fun x r l he hr hl => ?_
  by_cases hx : ∃ b ∈ as, b.path <+: x
  · -- the leaf is in the value of `b`, where `a` needs a dictionary
    obtain ⟨b, hb, s, rfl⟩ := hx
    have hpath : a.path = b.path ++ (s ++ r) := by rw [← List.append_assoc]; exact he
    have hab := hag b (by simp [hb]) a (by simp) (s ++ r) hpath []
    rw [List.append_nil] at hab
    have hdict := at?_of_append hr (hab ▸ at?_nil_ne_none a.value)
    rw [h.under b hb, hdict] at hl
    cases hl
  have hx' : ∀ b ∈ as, ¬b.path <+: x := fun b hb hp => hx ⟨b, hb, hp⟩
  by_cases hup : x = [] ∨ ∃ b ∈ as, x <+: b.path
  · rw [h.above x hx' hup] at hl
    cases hl
  · obtain ⟨hne, hside⟩ := not_or.1 hup
    rw [h.beside x hne hx' fun b hb hp => hside ⟨b, hb, hp⟩] at hl
    cases hl

/-- It leaves what the assignments before it say. -/
theorem Reads.store {as : List (Assignment K L)} {a : Assignment K L} {d d' : Dict K (Tree K L)}
    (h : Reads as (dict d)) (hag : Agree (as ++ [a])) (hs : a.store d = .ok d') :
    Reads (as ++ [a]) (dict d') := by
  have w : Writes a.path a.value (dict d) (dict d') := store_writes hs
  have hag₁ : ∀ b ∈ as, ∀ r, a.path = b.path ++ r → ∀ s, b.value.at? (r ++ s) = a.value.at? s :=
    fun b hb => hag b (by simp [hb]) a (by simp)
  have hag₂ : ∀ b ∈ as, ∀ r, b.path = a.path ++ r → ∀ s, a.value.at? (r ++ s) = b.value.at? s :=
    fun b hb => hag a (by simp) b (by simp [hb])
  have split : ∀ {P : Assignment K L → Prop}, (∀ b ∈ as ++ [a], P b) → (∀ b ∈ as, P b) ∧ P a :=
    fun hP => ⟨fun b hb => hP b (by simp [hb]), hP a (by simp)⟩
  refine ⟨fun b hb r => ?_, fun x hx hup => ?_, fun x hne hx hside => ?_⟩
  · rcases List.mem_append.1 hb with hb | hb
    · by_cases ha : a.path <+: b.path ++ r
      · obtain ⟨r', hr'⟩ := ha
        rw [← hr', w.at_]
        rcases List.append_eq_append_iff.1 hr' with ⟨s, hp, rfl⟩ | ⟨s, hp, rfl⟩
        · exact hag₂ b hb s hp r
        · exact (hag₁ b hb s hp r').symm
      by_cases hb' : b.path ++ r <+: a.path
      · -- `b` has a dictionary where `a` goes through
        obtain ⟨s, hs'⟩ := hb'
        have hne : s ≠ [] := by rintro rfl; exact ha ⟨[], by simpa using hs'.symm⟩
        have hv := hag₁ b hb (r ++ s) (by rw [← hs', List.append_assoc]) []
        rw [List.append_nil] at hv
        rw [w.above _ ⟨s, hs'⟩ (fun he => ha ⟨[], by simpa using he.symm⟩),
          at?_of_append hne (hv ▸ at?_nil_ne_none a.value)]
      · rw [w.beside _ hb' ha, h.under b hb]
    · rw [List.mem_singleton.1 hb, w.at_]
  · obtain ⟨hx₁, hx₂⟩ := split hx
    by_cases hxa : x <+: a.path
    · exact w.above x hxa fun he => hx₂ (he ▸ List.prefix_rfl)
    rw [w.beside x hxa hx₂]
    refine h.above x hx₁ (hup.imp_right fun ⟨b, hb, hp⟩ => ⟨b, ?_, hp⟩)
    rcases List.mem_append.1 hb with hb | hb
    · exact hb
    · exact absurd (List.mem_singleton.1 hb ▸ hp) hxa
  · obtain ⟨hx₁, hx₂⟩ := split hx
    obtain ⟨hs₁, hs₂⟩ := split hside
    rw [w.beside x hs₂ hx₂, h.beside x hne hx₁ hs₁]

theorem storeAll_append_singleton (as : List (Assignment K L)) (a : Assignment K L) :
    storeAll (as ++ [a]) = (storeAll as).bind a.store := by
  simp only [storeAll, List.foldlM_append, List.foldlM_cons, List.foldlM_nil, bind_pure]
  rfl

/-- Assignments that agree raise nothing, and leave what each of them says. -/
theorem storeAll_reads {as : List (Assignment K L)} (h : Agree as) :
    ∃ d, storeAll as = .ok d ∧ Reads as (dict d) := by
  induction as using List.reverseRecOn with
  | nil =>
    refine ⟨[], rfl, ⟨by simp, fun x _ hup => ?_, fun x hne _ _ => ?_⟩⟩
    · obtain rfl : x = [] := by simpa using hup
      rfl
    · obtain ⟨k, x, rfl⟩ := List.exists_cons_of_ne_nil hne
      rfl
  | append_singleton as a ih =>
    obtain ⟨d, hd, hr⟩ := ih fun b hb c hc => h b (by simp [hb]) c (by simp [hc])
    obtain ⟨d', hd'⟩ := hr.store_isOk h
    exact ⟨d', by rw [storeAll_append_singleton, hd]; exact hd', hr.store h hd'⟩

/-- What the last assignment says is there. -/
theorem at?_storeAll_last {as : List (Assignment K L)} {a : Assignment K L} {d : Dict K (Tree K L)}
    (h : storeAll (as ++ [a]) = .ok d) (r : List K) :
    at? (a.path ++ r) (dict d) = a.value.at? r := by
  rw [storeAll_append_singleton] at h
  cases hs : storeAll as with
  | error e => simp [hs, Except.bind] at h
  | ok d₀ =>
    rw [hs] at h
    exact (store_writes h).at_ r

/-- The assignments keep the keys of each dictionary distinct. -/
theorem storeAll_ok {as : List (Assignment K L)} (hv : ∀ a ∈ as, a.value.Ok) {d : Dict K (Tree K L)}
    (h : storeAll as = .ok d) : (dict d).Ok := by
  induction as using List.reverseRecOn generalizing d with
  | nil =>
    cases h
    exact .ofDict _ List.nodup_nil (by simp [Dict.values])
  | append_singleton as a ih =>
    rw [storeAll_append_singleton] at h
    cases hs : storeAll as with
    | error e => simp [hs, Except.bind] at h
    | ok d₀ =>
      rw [hs] at h
      exact store_ok (hv a (by simp)) (ih (fun b hb => hv b (by simp [hb])) hs) h

end Assignment
end Py
