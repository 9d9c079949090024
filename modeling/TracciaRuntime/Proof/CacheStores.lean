/-
  Traccia Runtime formalization — the cache store in memory.

  * `Indexes`: the tag sets say which keys carry a tag, and none of them is empty;
  * `Inv`: the representation invariant; `Inv.step`: every call keeps it;
  * `written`: what the calls have put under a key and not removed since;
  * `lastUse`: the call that last read or wrote a key;
  * `cache_store_sound`: the index, the bound, the reads and the evictions in every run.
-/
import Mathlib.Algebra.Order.Ring.Rat
import Mathlib.Data.List.Infix
import Mathlib.Data.List.Pairwise
import TracciaRuntime.Cache.Stores

namespace TracciaRuntime

open Py

variable {V : Type}

namespace InMemoryCacheStore

/-! ## The tag sets -/

/-- The tag set of `t`, empty if there is none. -/
def members (tags : Dict String (List String)) (t : String) : List String := (tags.get t).getD []

/-- The tag sets list the pairs of a tag and a key in `R`, and none of them is empty. -/
structure Indexes (tags : Dict String (List String)) (R : String → String → Prop) : Prop where
  mem_iff : ∀ t k, k ∈ members tags t ↔ R t k
  nonempty : ∀ t, tags.get t ≠ some []

theorem Indexes.congr {tags : Dict String (List String)} {R R' : String → String → Prop}
    (h : Indexes tags R) (hR : ∀ t k, R t k ↔ R' t k) : Indexes tags R' :=
  ⟨fun t k => (h.mem_iff t k).trans (hR t k), h.nonempty⟩

theorem Indexes.removeTag {tags : Dict String (List String)} {R : String → String → Prop}
    (h : Indexes tags R) (key tag : String) :
    Indexes (removeTag key tags tag) fun t k => R t k ∧ ¬ (k = key ∧ t = tag) := by
  unfold InMemoryCacheStore.removeTag
  split
  · rename_i hnone
    refine h.congr fun t k => ⟨fun hR => ⟨hR, ?_⟩, fun hR => hR.1⟩
    rintro ⟨-, rfl⟩
    have := (h.mem_iff t k).2 hR
    simp [members, hnone] at this
  · rename_i ms hms
    have hmem : ∀ k, k ∈ ms ↔ R tag k := fun k => by
      rw [← h.mem_iff, members, hms]; rfl
    dsimp only
    split
    · rename_i hempty
      have hnil := List.isEmpty_iff.1 hempty
      constructor
      · intro t k
        rw [members, Dict.get_erase]
        split
        · rename_i ht
          subst ht
          refine iff_of_false List.not_mem_nil fun hR => hR.2 ⟨?_, rfl⟩
          by_contra hk
          have : k ∈ ms.filter fun k => k ≠ key :=
            List.mem_filter.2 ⟨(hmem k).2 hR.1, by simpa using hk⟩
          rw [hnil] at this
          exact List.not_mem_nil this
        · rename_i ht
          exact (h.mem_iff t k).trans ⟨fun hR => ⟨hR, fun hc => ht hc.2⟩, fun hR => hR.1⟩
      · intro t
        rw [Dict.get_erase]
        split
        · simp
        · exact h.nonempty t
    · rename_i hne
      constructor
      · intro t k
        rw [members, Dict.get_set]
        split
        · rename_i ht
          subst ht
          simp only [Option.getD_some, List.mem_filter, hmem, decide_eq_true_eq]
          exact and_congr_right fun _ => ⟨fun hk hc => hk hc.1, fun hc hk => hc ⟨hk, trivial⟩⟩
        · rename_i ht
          exact (h.mem_iff t k).trans ⟨fun hR => ⟨hR, fun hc => ht hc.2⟩, fun hR => hR.1⟩
      · intro t
        rw [Dict.get_set]
        split
        · intro hnil
          rw [Option.some.injEq] at hnil
          exact hne (by rw [hnil]; rfl)
        · exact h.nonempty t

theorem Indexes.removeTags {tags : Dict String (List String)} {R : String → String → Prop}
    (h : Indexes tags R) (key : String) (itemTags : List String) :
    Indexes (removeTags tags key itemTags) fun t k => R t k ∧ ¬ (k = key ∧ t ∈ itemTags) := by
  induction itemTags generalizing tags R with
  | nil => exact h.congr fun t k => by simp
  | cons tag rest ih =>
    refine (ih (h.removeTag key tag)).congr fun t k => ?_
    simp only [List.mem_cons]
    tauto

theorem Indexes.addTag {tags : Dict String (List String)} {R : String → String → Prop}
    (h : Indexes tags R) (key tag : String) :
    Indexes (addTag key tags tag) fun t k => R t k ∨ k = key ∧ t = tag := by
  have hset : ∀ k, k ∈ (if key ∈ members tags tag then members tags tag
      else members tags tag ++ [key]) ↔ R tag k ∨ k = key := by
    intro k
    split
    · rename_i hk
      rw [h.mem_iff]
      exact ⟨.inl, fun hR => hR.elim id fun hkk => hkk ▸ (h.mem_iff tag key).1 hk⟩
    · rw [List.mem_append, List.mem_singleton, h.mem_iff]
  constructor
  · intro t k
    rw [InMemoryCacheStore.addTag, members, Dict.get_set]
    split
    · rename_i ht
      subst ht
      exact (hset k).trans (or_congr_right (and_iff_left rfl).symm)
    · rename_i ht
      exact (h.mem_iff t k).trans ⟨.inl, fun hR => hR.elim id fun hc => absurd hc.2 ht⟩
  · intro t
    rw [InMemoryCacheStore.addTag, Dict.get_set]
    split
    · intro hnil
      have := (hset key).2 (.inr rfl)
      rw [show (if key ∈ members tags tag then members tags tag
        else members tags tag ++ [key]) = [] from Option.some.inj hnil] at this
      exact List.not_mem_nil this
    · exact h.nonempty t

theorem Indexes.addTags {tags : Dict String (List String)} {R : String → String → Prop}
    (h : Indexes tags R) (key : String) (itemTags : List String) :
    Indexes (itemTags.foldl (InMemoryCacheStore.addTag key) tags) fun t k =>
      R t k ∨ k = key ∧ t ∈ itemTags := by
  induction itemTags generalizing tags R with
  | nil => exact h.congr fun t k => by simp
  | cons tag rest ih =>
    refine (ih (h.addTag key tag)).congr fun t k => ?_
    simp only [List.mem_cons]
    tauto

/-! ## The items -/

/-- The item under the key carries the tag. -/
def Tagged (items : Dict String (CacheItem V)) (t k : String) : Prop :=
  ∃ i, items.get k = some i ∧ t ∈ i.tags

/-- The representation invariant. -/
structure Inv (s : InMemoryCacheStore V) : Prop where
  nodup : s.items.keys.Nodup
  index : Indexes s.tags (Tagged s.items)

theorem erase_sublist (d : Dict String (CacheItem V)) (k : String) : (d.erase k).Sublist d :=
  List.filter_sublist

theorem get_append_of_not_mem {d : Dict String (CacheItem V)} {key : String}
    (h : d.get key = none) (item : CacheItem V) (k : String) :
    Dict.get (d ++ [(key, item)]) k = if k = key then some item else d.get k := by
  rw [← Dict.set_of_get_none h, Dict.get_set]

theorem Inv.remove {s : InMemoryCacheStore V} (h : s.Inv) (key : String) :
    (s.remove key).Inv ∧ (s.remove key).items = s.items.erase key := by
  unfold InMemoryCacheStore.remove
  split
  · rename_i hnone
    refine ⟨h, ?_⟩
    rw [Dict.erase, List.filter_eq_self.2]
    intro i hi
    have hk : key ∉ s.items.keys := Dict.get_eq_none_iff.1 hnone
    simp only [decide_eq_true_eq]
    rintro rfl
    exact hk (List.mem_map_of_mem hi)
  · rename_i item hitem
    refine ⟨⟨?_, ?_⟩, rfl⟩
    · exact h.nodup.sublist ((erase_sublist s.items key).map _)
    · refine (h.index.removeTags key item.tags).congr fun t k => ?_
      simp only [Tagged, Dict.get_erase]
      constructor
      · rintro ⟨⟨i, hi, ht⟩, hne⟩
        have hk : k ≠ key := by
          rintro rfl
          rw [hitem] at hi
          cases hi
          exact hne ⟨rfl, ht⟩
        exact ⟨i, by rw [if_neg hk]; exact hi, ht⟩
      · rintro ⟨i, hi, ht⟩
        split at hi
        · cases hi
        · rename_i hk
          exact ⟨⟨i, hi, ht⟩, fun hc => hk hc.1⟩

theorem tagged_cons {key : String} {item : CacheItem V} {items : Dict String (CacheItem V)}
    (h : Dict.keys ((key, item) :: items) |>.Nodup) (t k : String) :
    Tagged items t k ↔ Tagged ((key, item) :: items) t k ∧ ¬ (k = key ∧ t ∈ item.tags) := by
  have hkey : key ∉ Dict.keys items := (List.nodup_cons.1 h).1
  have hnone := Dict.get_eq_none_iff.2 hkey
  simp only [Tagged, Dict.get]
  constructor
  · rintro ⟨i, hi, ht⟩
    have hk : key ≠ k := by
      rintro rfl
      rw [hnone] at hi
      cases hi
    exact ⟨⟨i, by rw [if_neg hk]; exact hi, ht⟩, fun hc => hk hc.1.symm⟩
  · rintro ⟨⟨i, hi, ht⟩, hne⟩
    split at hi
    · rename_i hk
      cases hi
      exact absurd ⟨hk.symm, ht⟩ hne
    · exact ⟨i, hi, ht⟩

/-- The eviction loop drops the first items. -/
theorem evict_spec (n : Nat) {items : Dict String (CacheItem V)}
    {tags : Dict String (List String)} (hn : items.keys.Nodup) (h : Indexes tags (Tagged items)) :
    (evict n items tags).1 = items.drop (items.length - n) ∧
      Indexes (evict n items tags).2 (Tagged (evict n items tags).1) := by
  induction items generalizing tags with
  | nil => exact ⟨by simp [evict], h⟩
  | cons i items ih =>
    obtain ⟨key, item⟩ := i
    simp only [evict, List.length_cons]
    split
    · rename_i hlt
      have hrest := (h.removeTags key item.tags).congr fun t k => (tagged_cons hn t k).symm
      obtain ⟨hdrop, hidx⟩ := ih (List.nodup_cons.1 hn).2 hrest
      refine ⟨?_, hidx⟩
      rw [hdrop, show items.length + 1 - n = (items.length - n) + 1 by omega, List.drop_succ_cons]
    · rename_i hle
      refine ⟨?_, h⟩
      rw [show items.length + 1 - n = 0 by omega, List.drop_zero]

/-! ## The methods -/

@[simp] theorem remove_maxEntries (s : InMemoryCacheStore V) (key : String) :
    (s.remove key).maxEntries = s.maxEntries := by
  unfold InMemoryCacheStore.remove
  split <;> rfl

/-- A read moves the item to the end. -/
theorem Inv.touch {s : InMemoryCacheStore V} (h : s.Inv) {key : String} {item : CacheItem V}
    (hi : s.items.get key = some item) :
    ({ s with items := moveToEnd s.items key item } : InMemoryCacheStore V).Inv ∧
      ∀ k, (moveToEnd s.items key item).get k = s.items.get k := by
  have hnone : (s.items.erase key).get key = none := by rw [Dict.get_erase, if_pos rfl]
  have hget : ∀ k, (moveToEnd s.items key item).get k = s.items.get k := by
    intro k
    rw [moveToEnd, get_append_of_not_mem hnone, Dict.get_erase]
    split
    · rename_i hk; rw [hk, hi]
    · rfl
  refine ⟨⟨?_, h.index.congr fun t k => by simp only [Tagged, hget]⟩, hget⟩
  show (moveToEnd s.items key item).keys.Nodup
  rw [moveToEnd, ← Dict.set_of_get_none hnone]
  exact Dict.nodup_keys_set _ _ (h.nodup.sublist ((erase_sublist s.items key).map _))

theorem Inv.get {s : InMemoryCacheStore V} (h : s.Inv) (now : Time) (key : String) :
    (s.get now key).2.Inv := by
  unfold InMemoryCacheStore.get
  split
  · exact h
  · rename_i item hi
    split
    · exact (h.remove key).1
    · exact (h.touch hi).1

/-- The items after a `set`, before the eviction. -/
def written (s : InMemoryCacheStore V) (now : Time) (key : String) (value : V) (ttl : Int)
    (tags : List String) : Dict String (CacheItem V) :=
  s.items.erase key ++ [(key, ⟨now + ttl, value, tags⟩)]

theorem get_written (s : InMemoryCacheStore V) (now : Time) (key : String) (value : V) (ttl : Int)
    (tags : List String) (k : String) : (s.written now key value ttl tags).get k =
      if k = key then some ⟨now + ttl, value, tags⟩ else s.items.get k := by
  have hnone : (s.items.erase key).get key = none := by rw [Dict.get_erase, if_pos rfl]
  rw [written, get_append_of_not_mem hnone, Dict.get_erase]
  split <;> rfl

theorem Inv.set {s : InMemoryCacheStore V} (h : s.Inv) (now : Time) (key : String) (value : V)
    (ttl : Int) (tags : List String) :
    (s.set now key value ttl tags).Inv ∧
      (s.written now key value ttl tags).keys.Nodup ∧
      (s.set now key value ttl tags).items = (s.written now key value ttl tags).drop
        ((s.written now key value ttl tags).length - s.maxEntries) := by
  obtain ⟨hinv, hitems⟩ := h.remove key
  have hnone : (s.items.erase key).get key = none := by rw [Dict.get_erase, if_pos rfl]
  have hset : (s.remove key).items.set key ⟨now + ttl, value, tags⟩ =
      s.written now key value ttl tags := by
    rw [hitems, Dict.set_of_get_none hnone]
    rfl
  have hn : (s.written now key value ttl tags).keys.Nodup := by
    rw [← hset]
    exact Dict.nodup_keys_set _ _ hinv.nodup
  have hidx : Indexes (tags.foldl (InMemoryCacheStore.addTag key) (s.remove key).tags)
      (Tagged (s.written now key value ttl tags)) := by
    refine (hinv.index.addTags key tags).congr fun t k => ?_
    simp only [Tagged, get_written, hitems, Dict.get_erase]
    by_cases hk : k = key
    · simp [hk]
    · simp [hk]
  obtain ⟨hdrop, hkept⟩ := evict_spec s.maxEntries hn hidx
  have hs : (s.set now key value ttl tags) =
      { s with
        items := (evict s.maxEntries (s.written now key value ttl tags)
          (tags.foldl (InMemoryCacheStore.addTag key) (s.remove key).tags)).1
        tags := (evict s.maxEntries (s.written now key value ttl tags)
          (tags.foldl (InMemoryCacheStore.addTag key) (s.remove key).tags)).2 } := by
    rw [← hset]; rfl
  rw [hs]
  refine ⟨⟨?_, hkept⟩, hn, hdrop⟩
  show (evict _ _ _).1.keys.Nodup
  rw [hdrop]
  exact hn.sublist ((List.drop_sublist _ _).map _)

theorem Inv.removeAll {s : InMemoryCacheStore V} (h : s.Inv) (ks : List String) :
    (ks.foldl InMemoryCacheStore.remove s).Inv ∧
      (ks.foldl InMemoryCacheStore.remove s).items = s.items.filter (fun i => i.1 ∉ ks) ∧
      (ks.foldl InMemoryCacheStore.remove s).maxEntries = s.maxEntries := by
  induction ks generalizing s with
  | nil => exact ⟨h, by simp, rfl⟩
  | cons k ks ih =>
    obtain ⟨hinv, hitems⟩ := h.remove k
    obtain ⟨hinv', hitems', hmax⟩ := ih hinv
    refine ⟨hinv', ?_, by rw [List.foldl_cons, hmax, remove_maxEntries]⟩
    rw [List.foldl_cons, hitems', hitems, Dict.erase, List.filter_filter]
    refine List.filter_congr fun i _ => ?_
    by_cases h₁ : i.1 = k <;> by_cases h₂ : i.1 ∈ ks <;> simp [h₁, h₂]

/-- The keys of the tag sets are those of the items with one of the tags. -/
theorem Inv.mem_keysOf {s : InMemoryCacheStore V} (h : s.Inv) {tags : List String} {k : String} :
    k ∈ s.keysOf tags ↔ ∃ i, s.items.get k = some i ∧ ∃ t ∈ tags, t ∈ i.tags := by
  rw [keysOf, List.mem_dedup, List.mem_flatMap]
  constructor
  · rintro ⟨t, ht, hk⟩
    obtain ⟨i, hi, hti⟩ := (h.index.mem_iff t k).1 hk
    exact ⟨i, hi, t, ht, hti⟩
  · rintro ⟨i, hi, t, ht, hti⟩
    exact ⟨t, ht, (h.index.mem_iff t k).2 ⟨i, hi, hti⟩⟩

/-! ## A call -/

/-- The items of a call that has not read or written any, or the items with one of them at the
    end. -/
inductive Moves (items : Dict String (CacheItem V)) : Option String →
    Dict String (CacheItem V) → Prop
  | fewer {items' : Dict String (CacheItem V)} : items'.Sublist items → Moves items none items'
  | used {key : String} {item : CacheItem V} {l : Dict String (CacheItem V)} :
      l.Sublist (items.erase key) → Moves items (some key) (l ++ [(key, item)])

/-- The key that a call has read or written. -/
def used (c : CacheAccess V) : CacheReply V → Option String
  | .got (some _) => match c.op with
    | .get key => some key
    | _ => none
  | _ => match c.op with
    | .set key .. => some key
    | _ => none

/-- What a call does. -/
structure Stepped (s : InMemoryCacheStore V) (c : CacheAccess V) (r : CacheReply V)
    (s' : InMemoryCacheStore V) : Prop where
  inv : s'.Inv
  maxEntries : s'.maxEntries = s.maxEntries
  moves : Moves s.items (used c r) s'.items
  length : s'.items.length ≤ max s.items.length s.maxEntries

variable {order : List String → List String}

/-- **Every call keeps the invariant.** -/
theorem Inv.step (horder : ∀ l, (order l).Perm l) {s : InMemoryCacheStore V} (h : s.Inv)
    (hmax : 1 ≤ s.maxEntries) (c : CacheAccess V) :
    Stepped s c (step order c s).1 (step order c s).2 := by
  obtain ⟨op, now⟩ := c
  cases op with
  | get key =>
    simp only [InMemoryCacheStore.step, InMemoryCacheStore.get]
    rcases hi : s.items.get key with _ | item
    · exact ⟨h, rfl, .fewer (.refl _), le_max_left _ _⟩
    · by_cases he : item.expiresAt ≤ now
      · simp only [he, if_true]
        obtain ⟨hinv, hitems⟩ := h.remove key
        have hsub := erase_sublist s.items key
        exact ⟨hinv, remove_maxEntries s key, .fewer (hitems ▸ hsub),
          le_max_of_le_left (hitems ▸ hsub.length_le)⟩
      · simp only [he, if_false]
        refine ⟨(h.touch hi).1, rfl, .used (.refl _), le_max_of_le_left ?_⟩
        have hk : (key, item) ∈ s.items := Dict.mem_of_get hi
        have hlt : (s.items.erase key).length < s.items.length :=
          List.length_filter_lt_length_iff_exists.2 ⟨_, hk, by simp⟩
        simp only [moveToEnd, List.length_append, List.length_singleton]
        omega
  | set key value ttl tags =>
    obtain ⟨hinv, -, hitems⟩ := h.set now key value ttl tags
    refine ⟨hinv, rfl, ?_, le_max_of_le_right ?_⟩
    · show Moves s.items (some key) (s.set now key value ttl tags).items
      rw [hitems, written, List.drop_append_of_le_length (by
        simp only [List.length_append, List.length_singleton]; omega)]
      exact .used (List.drop_sublist _ _)
    · show (s.set now key value ttl tags).items.length ≤ s.maxEntries
      rw [hitems, List.length_drop]
      omega
  | delete key =>
    obtain ⟨hinv, hitems⟩ := h.remove key
    have hsub := erase_sublist s.items key
    exact ⟨hinv, remove_maxEntries s key, .fewer (hitems ▸ hsub),
      le_max_of_le_left (hitems ▸ hsub.length_le)⟩
  | invalidateTags tags =>
    obtain ⟨hinv, hitems, hm⟩ := h.removeAll (order (s.keysOf tags))
    have hsub : (s.items.filter fun i => i.1 ∉ order (s.keysOf tags)).Sublist s.items :=
      List.filter_sublist
    exact ⟨hinv, hm, .fewer (hitems ▸ hsub), le_max_of_le_left (hitems ▸ hsub.length_le)⟩

/-! ## Runs -/

/-- What the calls have put under the key and no later call has deleted or invalidated. -/
def standing : List (CacheAccess V) → String → Option (CacheItem V)
  | [], _ => none
  | c :: past, k =>
    match c.op with
    | .get _ => standing past k
    | .set key value ttl tags =>
      if key = k then some ⟨c.now + ttl, value, tags⟩ else standing past k
    | .delete key => if key = k then none else standing past k
    | .invalidateTags tags => (standing past k).filter fun i => i.tags.all fun t => t ∉ tags

section
variable (order : List String → List String) (maxEntries : Nat)

/-- The number of the last call that has read or written the key. -/
def lastUse : List (CacheAccess V) → String → Nat
  | [], _ => 0
  | c :: past, k =>
    if used c (reply order maxEntries past c) = some k then past.length + 1 else lastUse past k

theorem lastUse_le (calls : List (CacheAccess V)) (k : String) :
    lastUse order maxEntries calls k ≤ calls.length := by
  induction calls with
  | nil => exact le_refl _
  | cons c past ih =>
    simp only [lastUse, List.length_cons]
    split
    · exact le_refl _
    · omega

/-- What holds after the calls. -/
structure Holds (calls : List (CacheAccess V)) : Prop where
  inv : (after order maxEntries calls).Inv
  limit : (after order maxEntries calls).maxEntries = maxEntries
  bounded : (after order maxEntries calls).items.length ≤ maxEntries
  standing : ∀ k i, (after order maxEntries calls).items.get k = some i →
    InMemoryCacheStore.standing calls k = some i
  recent : (after order maxEntries calls).items.Pairwise fun i j =>
    lastUse order maxEntries calls i.1 < lastUse order maxEntries calls j.1

end

section
variable {order : List String → List String} {maxEntries : Nat} {c : CacheAccess V}
  {past : List (CacheAccess V)}

/-- The items stay in the order of their last use. -/
theorem Moves.recent {items items' : Dict String (CacheItem V)} {u : Option String}
    (h : Moves items u items') {f g : String → Nat} {n : Nat}
    (hpair : items.Pairwise fun i j => f i.1 < f j.1) (hle : ∀ k, f k < n)
    (hg : ∀ k, g k = if u = some k then n else f k) :
    items'.Pairwise fun i j => g i.1 < g j.1 := by
  cases h with
  | fewer hsub =>
    exact (hpair.sublist hsub).imp fun {i j} hij => by rw [hg, hg]; simpa using hij
  | @used key item l hsub =>
    have hne : ∀ i ∈ l, i.1 ≠ key := fun i hi => by
      simpa using (List.mem_filter.1 (hsub.subset hi)).2
    have hg' : ∀ i ∈ l, g i.1 = f i.1 := fun i hi => by
      rw [hg, if_neg fun hk => hne i hi (Option.some.inj hk).symm]
    refine List.pairwise_append.2 ⟨?_, List.pairwise_singleton _ _, fun i hi j hj => ?_⟩
    · refine List.Pairwise.imp_of_mem (fun {i j} hi hj hij => ?_)
        (hpair.sublist (hsub.trans (erase_sublist items key)))
      rw [hg' i hi, hg' j hj]
      exact hij
    · rw [List.mem_singleton] at hj
      subst hj
      rw [hg' i hi, hg, if_pos rfl]
      exact hle i.1

/-- What is stored is what the calls have put. -/
theorem Inv.standing (horder : ∀ l, (order l).Perm l) {s : InMemoryCacheStore V} (h : s.Inv)
    (hs : ∀ k i, s.items.get k = some i → InMemoryCacheStore.standing past k = some i)
    (c : CacheAccess V) (k : String)
    (i : CacheItem V) (hi : (InMemoryCacheStore.step order c s).2.items.get k = some i) :
    InMemoryCacheStore.standing (c :: past) k = some i := by
  obtain ⟨op, now⟩ := c
  cases op with
  | get key =>
    simp only [InMemoryCacheStore.step, InMemoryCacheStore.get] at hi
    rcases hk : s.items.get key with _ | item
    · rw [hk] at hi; exact hs k i hi
    · rw [hk] at hi
      by_cases he : item.expiresAt ≤ now
      · simp only [he, if_true, (h.remove key).2, Dict.get_erase] at hi
        split at hi
        · cases hi
        · exact hs k i hi
      · simp only [he, if_false, (h.touch hk).2] at hi
        exact hs k i hi
  | set key value ttl tags =>
    obtain ⟨-, hn, hitems⟩ := h.set now key value ttl tags
    replace hi : (s.set now key value ttl tags).items.get k = some i := hi
    have hi' : (s.written now key value ttl tags).get k = some i := by
      have hmem := Dict.mem_of_get hi
      rw [hitems] at hmem
      exact Dict.get_of_mem hn ((List.drop_sublist _ _).subset hmem)
    rw [get_written] at hi'
    simp only [InMemoryCacheStore.standing]
    by_cases hk : k = key
    · rw [if_pos hk] at hi'; rw [if_pos hk.symm]; exact hi'
    · rw [if_neg hk] at hi'; rw [if_neg (Ne.symm hk)]; exact hs k i hi'
  | delete key =>
    replace hi : (s.remove key).items.get k = some i := hi
    rw [(h.remove key).2, Dict.get_erase] at hi
    simp only [InMemoryCacheStore.standing]
    split at hi
    · cases hi
    · rename_i hk; rw [if_neg (Ne.symm hk)]; exact hs k i hi
  | invalidateTags tags =>
    replace hi : ((order (s.keysOf tags)).foldl InMemoryCacheStore.remove s).items.get k =
      some i := hi
    obtain ⟨-, hitems, -⟩ := h.removeAll (order (s.keysOf tags))
    rw [hitems] at hi
    obtain ⟨hmem, hnot⟩ := List.mem_filter.1 (Dict.mem_of_get hi)
    have hget := Dict.get_of_mem h.nodup hmem
    simp only [InMemoryCacheStore.standing, hs k i hget]
    refine Option.filter_eq_some_iff.2 ⟨rfl, List.all_eq_true.2 fun t ht => ?_⟩
    rw [decide_eq_true_eq]
    intro htags
    have hkey : k ∈ s.keysOf tags := h.mem_keysOf.2 ⟨i, hget, t, htags, ht⟩
    simp only [decide_eq_true_eq] at hnot
    exact hnot ((horder _).mem_iff.2 hkey)

/-- **The store after any calls.** -/
theorem holds (horder : ∀ l, (order l).Perm l) (hmax : 1 ≤ maxEntries) :
    ∀ calls : List (CacheAccess V), Holds order maxEntries calls
  | [] => by
    refine ⟨⟨List.nodup_nil, ?_, nofun⟩, rfl, Nat.zero_le _, fun k i hi => ?_, .nil⟩
    · exact fun t k => ⟨fun hk => absurd hk List.not_mem_nil, fun ⟨i, hi, _⟩ => by cases hi⟩
    · cases hi
  | c :: past => by
    have hp := holds horder hmax past
    have hstep := hp.inv.step horder (by rw [hp.limit]; exact hmax) c
    refine ⟨hstep.inv, hstep.maxEntries.trans hp.limit, ?_, fun k i hi =>
      hp.inv.standing horder hp.standing c k i hi, ?_⟩
    · have := hstep.length
      rw [hp.limit] at this
      exact this.trans (max_le hp.bounded (le_refl _))
    · exact hstep.moves.recent hp.recent 
        (fun k => Nat.lt_succ_of_le (lastUse_le order maxEntries past k)) fun k => rfl

end

/-! ## The store -/

section
variable (order : List String → List String) (maxEntries : Nat)

/-- The `set` of `key` after `past` stores `item` and evicts the items that were used least
    recently, no more than it has to. -/
structure EvictsOldest (c : CacheAccess V) (past : List (CacheAccess V)) (key : String)
    (item : CacheItem V) : Prop where
  stores : (after order maxEntries (c :: past)).items.get key = some item
  keeps : ∀ k i, k ≠ key → (after order maxEntries (c :: past)).items.get k = some i →
    (after order maxEntries past).items.get k = some i
  evicts : ∀ k i, k ≠ key → (after order maxEntries past).items.get k = some i →
    (after order maxEntries (c :: past)).items.get k = none →
    (after order maxEntries (c :: past)).items.length = maxEntries ∧
      ∀ k' i', (after order maxEntries (c :: past)).items.get k' = some i' →
        lastUse order maxEntries (c :: past) k < lastUse order maxEntries (c :: past) k'

end

section
variable {order : List String → List String} {maxEntries : Nat}

theorem evictsOldest (horder : ∀ l, (order l).Perm l) (hmax : 1 ≤ maxEntries)
    {c : CacheAccess V} {past : List (CacheAccess V)} {key : String} {value : V} {ttl : Int}
    {tags : List String} (hc : c.op = .set key value ttl tags) :
    EvictsOldest order maxEntries c past key ⟨c.now + ttl, value, tags⟩ := by
  have hp := holds horder hmax past (V := V)
  have hh := holds horder hmax (c :: past)
  obtain ⟨op, now⟩ := c
  cases hc
  obtain ⟨hinv, hn, hitems⟩ := hp.inv.set now key value ttl tags
  set s := after order maxEntries past with hs
  set w := s.written now key value ttl tags with hw
  have hafter : (after order maxEntries (⟨.set key value ttl tags, now⟩ :: past)).items =
      w.drop (w.length - maxEntries) := by
    rw [show s.maxEntries = maxEntries from hp.limit] at hitems
    exact hitems
  have hlen : w.length = (s.items.erase key).length + 1 := by
    rw [hw, written, List.length_append, List.length_singleton]
  have hsplit : w.take (w.length - maxEntries) ++ w.drop (w.length - maxEntries) = w :=
    List.take_append_drop _ _
  have hnodup := hh.inv.nodup
  rw [hafter] at hnodup
  refine ⟨?_, fun k i hk hi => ?_, fun k i hk hi hnone => ?_⟩
  · rw [hafter]
    refine Dict.get_of_mem hnodup ?_
    rw [hw, written, List.drop_append_of_le_length (by rw [← written, ← hw, hlen]; omega)]
    exact List.mem_append_right _ List.mem_cons_self
  · rw [hafter] at hi
    have hmem := (List.drop_sublist _ _).subset (Dict.mem_of_get hi)
    have hget := Dict.get_of_mem hn hmem
    rwa [hw, get_written, if_neg hk] at hget
  · have hget : w.get k = some i := by rw [hw, get_written, if_neg hk]; exact hi
    -- the key is among the first items
    have hmem := Dict.mem_of_get hget
    rw [← hsplit] at hmem
    have htake : (k, i) ∈ w.take (w.length - maxEntries) := by
      rcases List.mem_append.1 hmem with h | h
      · exact h
      · rw [hafter, Dict.get_eq_none_iff] at hnone
        exact absurd (List.mem_map_of_mem (f := (·.1)) h) hnone
    have hpos : 0 < w.length - maxEntries := by
      rcases Nat.eq_zero_or_pos (w.length - maxEntries) with h | h
      · rw [h, List.take_zero] at htake
        exact absurd htake List.not_mem_nil
      · exact h
    refine ⟨by rw [hafter, List.length_drop]; omega, fun k' i' hi' => ?_⟩
    rw [hafter] at hi'
    -- the items before the eviction are in the order of their last use
    have hpair : w.Pairwise fun i j =>
        lastUse order maxEntries (⟨.set key value ttl tags, now⟩ :: past) i.1 <
          lastUse order maxEntries (⟨.set key value ttl tags, now⟩ :: past) j.1 := by
      refine Moves.recent (.used (.refl _)) hp.recent
        (fun k => Nat.lt_succ_of_le (lastUse_le order maxEntries past k)) fun k => ?_
      rfl
    rw [← hsplit, List.pairwise_append] at hpair
    exact hpair.2.2 _ htake _ (Dict.mem_of_get hi')

/-- **The cache store in memory is sound** in every run: a key is in the tag set of `t` just when
    it is stored with `t` among its tags, no tag set is empty, the items fit, a read returns what
    stands under its key and has not expired, and a write evicts the least recently used items. -/
theorem cache_store_sound (horder : ∀ l, (order l).Perm l) (hmax : 1 ≤ maxEntries)
    (calls : List (CacheAccess V)) :
    let s := after order maxEntries calls
    (∀ t k, (∃ ks, s.tags.get t = some ks ∧ k ∈ ks) ↔
      ∃ i, s.items.get k = some i ∧ t ∈ i.tags) ∧
    (∀ t, s.tags.get t ≠ some []) ∧
    s.items.length ≤ maxEntries ∧
    (∀ c past key v, c :: past <:+ calls → c.op = .get key →
      reply order maxEntries past c = .got (some v) →
      ∃ i, standing past key = some i ∧ i.value = v ∧ c.now < i.expiresAt) ∧
    ∀ c past key value ttl tags, c :: past <:+ calls → c.op = .set key value ttl tags →
      EvictsOldest order maxEntries c past key ⟨c.now + ttl, value, tags⟩ := by
  have hh := holds horder hmax calls
  refine ⟨fun t k => ?_, hh.inv.index.nonempty, hh.bounded, fun c past key v _ hc hr => ?_,
    fun c past key value ttl tags _ hc => evictsOldest horder hmax hc⟩
  · refine Iff.trans ?_ (hh.inv.index.mem_iff t k)
    unfold members
    cases (after order maxEntries calls).tags.get t <;> simp
  · have hp := holds horder hmax past (V := V)
    obtain ⟨op, now⟩ := c
    cases hc
    simp only [reply, InMemoryCacheStore.step, InMemoryCacheStore.get] at hr
    rcases hi : (after order maxEntries past).items.get key with _ | i
    · rw [hi] at hr; cases hr
    · rw [hi] at hr
      by_cases he : i.expiresAt ≤ now
      · simp only [he, if_true] at hr
        cases hr
      · simp only [he, if_false, CacheReply.got.injEq, Option.some.injEq] at hr
        exact ⟨i, hp.standing key i hi, hr, lt_of_not_ge he⟩

theorem cache_store_sound_sample :
    ((after (V := Nat) id 1 [⟨.get "a", 1⟩, ⟨.set "a" 5 60 ["t"], 0⟩]).items.length ≤ 1) :=
  (cache_store_sound (fun _ => .refl _) (le_refl 1) _).2.2.1

end

end InMemoryCacheStore

end TracciaRuntime
