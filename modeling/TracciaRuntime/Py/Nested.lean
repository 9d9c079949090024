/-
  Nested dictionaries, as configuration files and decoded JSON hold them.

  * `Tree`, and `at?`: what stands at a path of keys; `Same`: the same at every path, which is
    how Python compares dictionaries;
  * `merge`: one dictionary over another, key by key; `merge_congr`: equal dictionaries merge to
    equal ones.
-/
import Mathlib.Data.List.Infix
import TracciaRuntime.Py.Dict

namespace Py

/-- A dictionary of dictionaries; a leaf is an object that is no dictionary. -/
inductive Tree (K L : Type) where
  | leaf (x : L)
  | dict (d : List (K × Tree K L))

/-- What stands at a path. -/
inductive Shape (L : Type) where
  | leaf (x : L)
  | dict

namespace Tree
variable {K L : Type} [DecidableEq K]

/-- What stands at a path of keys. -/
def at? : List K → Tree K L → Option (Shape L)
  | [], leaf x => some (.leaf x)
  | [], dict _ => some .dict
  | _ :: _, leaf _ => none
  | k :: path, dict d => (Dict.get d k).bind (at? path)

/-- `t == u`: the order in which a dictionary holds its keys does not matter. -/
def Same (t u : Tree K L) : Prop := ∀ path, t.at? path = u.at? path

/-- No dictionary in the tree lists a key twice. -/
inductive Ok : Tree K L → Prop
  | ofLeaf (x : L) : Ok (leaf x)
  | ofDict (d : Dict K (Tree K L)) (nodup : d.keys.Nodup) (values : ∀ t ∈ d.values, Ok t) :
      Ok (dict d)

/-! ## What stands at a path -/

@[simp] theorem at?_nil_dict (d : Dict K (Tree K L)) : at? [] (dict d) = some .dict := rfl

@[simp] theorem at?_cons_dict (k : K) (path : List K) (d : Dict K (Tree K L)) :
    at? (k :: path) (dict d) = (Dict.get d k).bind (at? path) := rfl

theorem at?_nil_ne_none (t : Tree K L) : t.at? [] ≠ none := by
  cases t <;> simp [at?]

/-- A path that goes on leads through dictionaries. -/
theorem at?_of_append {t : Tree K L} {p q : List K} (hq : q ≠ []) (h : t.at? (p ++ q) ≠ none) :
    t.at? p = some .dict := by
  induction p generalizing t with
  | nil =>
    cases t with
    | leaf x =>
      obtain ⟨k, q, rfl⟩ := List.exists_cons_of_ne_nil hq
      exact absurd rfl h
    | dict d => rfl
  | cons k p ih =>
    cases t with
    | leaf x => exact absurd rfl h
    | dict d =>
      simp only [List.cons_append, at?_cons_dict] at h ⊢
      cases hk : Dict.get d k with
      | none => simp [hk] at h
      | some t => exact ih (by simpa [hk] using h)

theorem Same.symm {t u : Tree K L} (h : t.Same u) : u.Same t := fun path => (h path).symm

theorem Same.cases {t u : Tree K L} (h : t.Same u) :
    (∃ x, t = leaf x ∧ u = leaf x) ∨ ∃ d e, t = dict d ∧ u = dict e := by
  have hroot := h []
  cases t with
  | leaf x => cases u <;> simp_all [at?]
  | dict d => cases u <;> simp_all [at?]

/-- Equal dictionaries hold equal objects under the same keys. -/
theorem Same.get {d e : Dict K (Tree K L)} (h : (dict d).Same (dict e)) (k : K) :
    (d.get k = none ∧ e.get k = none) ∨
      ∃ t u, d.get k = some t ∧ e.get k = some u ∧ t.Same u := by
  have hk : ∀ path, (d.get k).bind (at? path) = (e.get k).bind (at? path) :=
    fun path => h (k :: path)
  cases hd : d.get k with
  | none =>
    cases he : e.get k with
    | none => exact .inl ⟨rfl, rfl⟩
    | some u => exact absurd (by simpa [hd, he] using (hk []).symm) (at?_nil_ne_none u)
  | some t =>
    cases he : e.get k with
    | none => exact absurd (by simpa [hd, he] using hk []) (at?_nil_ne_none t)
    | some u => exact .inr ⟨t, u, rfl, rfl, fun path => by simpa [hd, he] using hk path⟩

/-! ## One dictionary over another -/

mutual

/-- The object that `merge` puts under a key, over the one that is there. -/
def overlaid : Option (Tree K L) → Tree K L → Tree K L
  | some (dict base), dict overlay => dict (merge base overlay)
  | _, value => value
  termination_by _ value => sizeOf value

/-- The items of `overlay`, over those of `result`: dictionaries are merged, everything else
    is replaced. -/
def merge (result : Dict K (Tree K L)) : Dict K (Tree K L) → Dict K (Tree K L)
  | [] => result
  | (key, value) :: overlay => merge (result.set key (overlaid (result.get key) value)) overlay
  termination_by overlay => sizeOf overlay

end

@[simp] theorem overlaid_leaf (t : Option (Tree K L)) (x : L) : overlaid t (leaf x) = leaf x := by
  rw [overlaid]
  rintro _ _ _ ⟨⟩

theorem get_merge {overlay : Dict K (Tree K L)} (h : overlay.keys.Nodup)
    (base : Dict K (Tree K L)) (k : K) :
    (merge base overlay).get k =
      (overlay.get k).elim (base.get k) fun value => some (overlaid (base.get k) value) := by
  induction overlay generalizing base with
  | nil => rw [merge]; rfl
  | cons i overlay ih =>
    obtain ⟨key, value⟩ := i
    obtain ⟨hkey, hn⟩ := List.nodup_cons.1 (show (key :: Dict.keys overlay).Nodup from h)
    rw [merge, ih hn, Dict.get_set]
    by_cases hk : key = k
    · subst hk
      simp [Dict.get_eq_none_iff.2 hkey, Dict.get]
    · simp [Dict.get, hk, Ne.symm hk]

theorem Ok.get {d : Dict K (Tree K L)} (h : (dict d).Ok) {k : K} {t : Tree K L}
    (hk : d.get k = some t) : t.Ok := by
  cases h with
  | ofDict _ _ values => exact values t (List.mem_map_of_mem (f := (·.2)) (Dict.mem_of_get hk))

omit [DecidableEq K] in
theorem Ok.nodup {d : Dict K (Tree K L)} (h : (dict d).Ok) : d.keys.Nodup := by
  cases h with
  | ofDict _ nodup _ => exact nodup

/-- Merging equal dictionaries gives equal ones. -/
theorem merge_congr {b b' o o' : Dict K (Tree K L)} (hb : (dict b).Same (dict b'))
    (ho : (dict o).Same (dict o')) (ok : (dict o).Ok) (ok' : (dict o').Ok) :
    (dict (merge b o)).Same (dict (merge b' o')) := by
  intro path
  induction path generalizing b b' o o' with
  | nil => rfl
  | cons k path ih =>
    rw [at?_cons_dict, at?_cons_dict, get_merge ok.nodup, get_merge ok'.nodup]
    obtain ⟨h, h'⟩ | ⟨v, v', h, h', hv⟩ := ho.get k
    · rw [h, h']
      exact hb (k :: path)
    simp only [h, h', Option.elim, Option.bind_some]
    have hpath := hv path
    obtain ⟨x, rfl, rfl⟩ | ⟨d, e, rfl, rfl⟩ := hv.cases
    · rw [overlaid_leaf, overlaid_leaf]
    obtain ⟨g, g'⟩ | ⟨t, t', g, g', ht⟩ := hb.get k
    · simpa only [g, g', overlaid] using hpath
    -- what is there is replaced, or a dictionary on both sides
    obtain ⟨x, rfl, rfl⟩ | ⟨d', e', rfl, rfl⟩ := ht.cases
    · simpa only [g, g', overlaid] using hpath
    · rw [g, g', overlaid, overlaid]
      exact ih ht hv (ok.get h) (ok'.get h')

theorem merge_nil (d : Dict K (Tree K L)) : merge d [] = d := by rw [merge]

/-- Over nothing, an overlay is itself. -/
theorem nil_merge {o : Dict K (Tree K L)} (ok : (dict o).Ok) :
    (dict (merge [] o)).Same (dict o) := by
  intro path
  cases path with
  | nil => rfl
  | cons k path =>
    rw [at?_cons_dict, at?_cons_dict, get_merge ok.nodup]
    cases h : o.get k with
    | none => rfl
    | some v => cases v <;> simp [Dict.get, overlaid]

end Tree
end Py
