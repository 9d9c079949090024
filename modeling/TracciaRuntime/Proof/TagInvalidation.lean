/-
  Traccia Runtime formalization — tag invalidation in the two cache stores.

  The tag set of Redis has a time to live of its own, which every `set` with the tag
  replaces.

  * `Covered`: the tag set lists the key, told from the calls: `set` has put it there, and
    since then the tag has not been invalidated and no time to live given to its set has
    passed;
  * `Alive`: a value stands under the key, told from the calls;
  * `Shows`: the server holds what the calls say; `Shows.step`: every call keeps this;
  * `tag_invalidation_iff`: an invalidation removes every value last set with one of the tags
    just when each of them that is alive is covered by one of the tags.
-/
import Mathlib.Tactic.Linarith
import TracciaRuntime.Proof.CacheStores

namespace TracciaRuntime

open Py

variable {V : Type}

/-! ## What the calls say -/

/-- `k` has been set with the tag `t`, and since then the tag has not been invalidated and the
    time to live given with it by the last `set` at any time has not passed. -/
def Covered : List (CacheAccess V) → Time → String → String → Prop
  | [], _, _, _ => False
  | c :: past, now, k, t =>
    match c.op with
    | .set key _ ttl tags =>
      if t ∈ tags then 0 < ttl ∧ now < c.now + ttl ∧ (key = k ∨ Covered past c.now k t)
      else Covered past now k t
    | .invalidateTags tags => t ∉ tags ∧ Covered past now k t
    | .get _ | .delete _ => Covered past now k t

/-- A value has been set under `k`, its time to live has not passed, and it has not been deleted
    or invalidated by a tag that covers it. -/
def Alive : List (CacheAccess V) → Time → String → Prop
  | [], _, _ => False
  | c :: past, now, k =>
    match c.op with
    | .set key _ ttl _ => if key = k ∧ 0 < ttl then now < c.now + ttl else Alive past now k
    | .invalidateTags tags => (∀ t ∈ tags, ¬ Covered past c.now k t) ∧ Alive past now k
    | .delete key => key ≠ k ∧ Alive past now k
    | .get _ => Alive past now k

/-- The tags with which a value was last set under `k`. -/
def lastTags : List (CacheAccess V) → String → List String
  | [], _ => []
  | c :: past, k =>
    match c.op with
    | .set key _ ttl tags => if key = k ∧ 0 < ttl then tags else lastTags past k
    | _ => lastTags past k

namespace RedisCacheStore

/-! ## The keys -/

theorem valueKey_inj {pre k k' : String} (h : valueKey pre k = valueKey pre k') : k = k' := by
  have := congrArg String.toList h
  simp only [valueKey, String.toList_append, List.append_cancel_left_eq] at this
  exact String.toList_inj.1 this

theorem tagKey_inj {pre t t' : String} (h : tagKey pre t = tagKey pre t') : t = t' := by
  have := congrArg String.toList h
  simp only [tagKey, String.toList_append, List.append_cancel_left_eq] at this
  exact String.toList_inj.1 this

theorem valueKey_ne_tagKey (pre k t : String) : valueKey pre k ≠ tagKey pre t := by
  intro h
  have := congrArg String.toList h
  simp only [valueKey, tagKey, String.toList_append, List.append_assoc,
    List.append_cancel_left_eq] at this
  simp at this

/-! ## The server -/

/-- Values have a time to live, and tag sets list value keys and have a time to live too. -/
structure Typed (pre : String) (db : RedisServer V) : Prop where
  value : ∀ k e, Dict.get db (valueKey pre k) = some e → ∃ v t, e = ⟨.string v, some t⟩
  tag : ∀ t e, Dict.get db (tagKey pre t) = some e → ∃ ks x,
    e = ⟨.set (List.map (valueKey pre) ks), some x⟩

/-- The value under `k` can be read. -/
def Readable (pre : String) (db : RedisServer V) (now : Time) (k : String) : Prop :=
  (db.lookup now (valueKey pre k)).isSome

/-- The tag set of `t` lists `k`. -/
def Listed (pre : String) (db : RedisServer V) (now : Time) (k t : String) : Prop :=
  ∃ ms x, db.lookup now (tagKey pre t) = some ⟨.set ms, x⟩ ∧ valueKey pre k ∈ ms

/-- The server holds what the calls say. -/
structure Shows (pre : String) (db : RedisServer V) (calls : List (CacheAccess V)) : Prop where
  typed : Typed pre db
  readable : ∀ now k, Readable pre db now k ↔ Alive calls now k
  listed : ∀ now k t, Listed pre db now k t ↔ Covered calls now k t

end RedisCacheStore

theorem RedisServer.lookup_set (db : RedisServer V) (now : Time) (key key' : String)
    (e : RedisEntry V) : RedisServer.lookup (Dict.set db key e) now key' =
      if key' = key then (some e).filter fun e => e.expiresAt.all fun t => now < t
      else db.lookup now key' := by
  rw [lookup, Dict.get_set]
  split <;> rfl

theorem RedisServer.get_del (db : RedisServer V) (keys : List String) (key : String) :
    Dict.get (db.del keys) key = if key ∈ keys then none else Dict.get db key := by
  induction keys generalizing db with
  | nil => simp [del]
  | cons k ks ih =>
    rw [del, List.foldl_cons]
    refine (ih (Dict.erase db k)).trans ?_
    rw [Dict.get_erase]
    by_cases h : key = k <;> simp [h]

namespace RedisCacheStore
variable {pre : String} {db : RedisServer V} {calls past : List (CacheAccess V)}

/-- An alive tag set. -/
theorem Typed.lookup_tag (h : Typed pre db) (now : Time) (t : String) :
    (db.lookup now (tagKey pre t) = none ∧ ∀ k, ¬ Listed pre db now k t) ∨
    ∃ ks x, now < x ∧
      db.lookup now (tagKey pre t) = some ⟨.set (List.map (valueKey pre) ks), some x⟩ ∧
      ∀ k, k ∈ ks ↔ Listed pre db now k t := by
  rcases hl : db.lookup now (tagKey pre t) with _ | e
  · exact .inl ⟨rfl, fun k ⟨ms, x, hms, _⟩ => by rw [hl] at hms; cases hms⟩
  · obtain ⟨hget, halive⟩ := Option.filter_eq_some_iff.1 hl
    obtain ⟨ks, x, rfl⟩ := h.tag t e hget
    refine .inr ⟨ks, x, by simpa using halive, rfl, fun k => ?_⟩
    constructor
    · exact fun hk => ⟨_, _, hl, List.mem_map_of_mem hk⟩
    · rintro ⟨ms, y, hms, hk⟩
      rw [hl] at hms
      cases hms
      obtain ⟨k', hk', heq⟩ := List.mem_map.1 hk
      exact valueKey_inj heq ▸ hk'

/-- The commands of the pipeline for one tag. -/
theorem Typed.addTag (h : Typed pre db) (now : Time) (key : String) (ttl : Int) (r : Except Exn Unit)
    (tag : String) : ∃ ks : List String, (∀ k, k ∈ ks ↔ key = k ∨ Listed pre db now k tag) ∧
      ∀ key', Dict.get (addTag pre now key ttl (r, db) tag).2 key' =
        if key' = tagKey pre tag then
          if ttl ≤ 0 then none
          else some ⟨.set (List.map (valueKey pre) ks), some (now + ttl)⟩
        else Dict.get db key' := by
  unfold RedisCacheStore.addTag RedisServer.sadd
  rcases h.lookup_tag now tag with ⟨hl, hno⟩ | ⟨ks, x, hx, hl, hks⟩
  · refine ⟨[key], fun k => by simp [hno k, eq_comm], fun key' => ?_⟩
    simp only [hl]
    unfold RedisServer.expire
    rw [RedisServer.lookup_set, if_pos rfl]
    simp only [Option.filter_some, Option.all_none, if_true]
    split
    · rw [Dict.get_erase]
      split
      · rfl
      · rename_i hne; rw [Dict.get_set_ne hne]
    · rw [Dict.get_set]
      split
      · rfl
      · rename_i hne; rw [Dict.get_set_ne hne]
  · refine ⟨if key ∈ ks then ks else ks ++ [key], fun k => ?_, fun key' => ?_⟩
    · split
      · rename_i hk
        rw [hks]
        exact ⟨.inr, fun hc => hc.elim (fun he => he ▸ (hks key).1 hk) id⟩
      · rw [List.mem_append, List.mem_singleton, hks, eq_comm (a := k), or_comm]
    · have hmap : (if valueKey pre key ∈ List.map (valueKey pre) ks
          then List.map (valueKey pre) ks else List.map (valueKey pre) ks ++ [valueKey pre key]) =
          List.map (valueKey pre) (if key ∈ ks then ks else ks ++ [key]) := by
        by_cases hk : key ∈ ks
        · rw [if_pos hk, if_pos (List.mem_map_of_mem hk)]
        · have hk' : valueKey pre key ∉ List.map (valueKey pre) ks := fun hc => by
            obtain ⟨k', hk', heq⟩ := List.mem_map.1 hc
            exact hk (valueKey_inj heq ▸ hk')
          rw [if_neg hk, if_neg hk', List.map_append]
          rfl
      simp only [hl, hmap]
      unfold RedisServer.expire
      rw [RedisServer.lookup_set, if_pos rfl]
      simp only [Option.filter_some, Option.all_some, hx, decide_true, if_true]
      split
      · rw [Dict.get_erase]
        split
        · rfl
        · rename_i hne; rw [Dict.get_set_ne hne]
      · rw [Dict.get_set]
        split
        · rfl
        · rename_i hne; rw [Dict.get_set_ne hne]

/-- What one tag of a `set` changes. -/
structure Tags (pre : String) (db db' : RedisServer V) (now : Time) (key : String) (ttl : Int)
    (tags : List String) : Prop where
  typed : Typed pre db'
  value : ∀ k, Dict.get db' (valueKey pre k) = Dict.get db (valueKey pre k)
  listed : ∀ now' k t, Listed pre db' now' k t ↔
    if t ∈ tags then 0 < ttl ∧ now' < now + ttl ∧ (key = k ∨ Listed pre db now k t)
    else Listed pre db now' k t

theorem Tags.one (h : Typed pre db) (now : Time) (key : String) (ttl : Int)
    (r : Except Exn Unit) (tag : String) :
    Tags pre db (RedisCacheStore.addTag pre now key ttl (r, db) tag).2 now key ttl [tag] := by
  obtain ⟨ks, hks, hget⟩ := h.addTag now key ttl r tag
  have hvalue : ∀ k, Dict.get (RedisCacheStore.addTag pre now key ttl (r, db) tag).2
      (valueKey pre k) = Dict.get db (valueKey pre k) := fun k => by
    rw [hget, if_neg (valueKey_ne_tagKey pre k tag)]
  refine ⟨⟨fun k e he => h.value k e (by rw [← hvalue]; exact he), fun t e he => ?_⟩, hvalue,
    fun now' k t => ?_⟩
  · rw [hget] at he
    split at he
    · split at he
      · cases he
      · cases he; exact ⟨ks, _, rfl⟩
    · exact h.tag t e he
  · have hlookup : RedisServer.lookup (RedisCacheStore.addTag pre now key ttl (r, db) tag).2 now'
        (tagKey pre t) = if t = tag then
          if ttl ≤ 0 then none
          else (some (⟨.set (List.map (valueKey pre) ks), some (now + ttl)⟩ : RedisEntry V)).filter
            fun e => e.expiresAt.all fun x => now' < x
        else db.lookup now' (tagKey pre t) := by
      rw [RedisServer.lookup, hget]
      by_cases ht : t = tag
      · rw [if_pos (congrArg _ ht), if_pos ht]
        split <;> rfl
      · rw [if_neg fun hc => ht (tagKey_inj hc), if_neg ht]
        rfl
    simp only [List.mem_singleton]
    by_cases ht : t = tag
    · subst ht
      rw [if_pos rfl, ← hks]
      unfold Listed
      rw [hlookup, if_pos rfl]
      by_cases hz : ttl ≤ 0
      · rw [if_pos hz]
        refine ⟨fun hc => ?_, fun hc => absurd hc.1 (not_lt.2 hz)⟩
        obtain ⟨_, _, hc, _⟩ := hc
        cases hc
      · rw [if_neg hz]
        simp only [Option.filter_some, Option.all_some]
        by_cases hn : now' < now + ttl
        · simp only [hn, decide_true, if_true]
          constructor
          · rintro ⟨ms, x, hms, hk⟩
            cases hms
            obtain ⟨k', hk', heq⟩ := List.mem_map.1 hk
            exact ⟨not_le.1 hz, trivial, valueKey_inj heq ▸ hk'⟩
          · rintro ⟨-, -, hk⟩
            exact ⟨_, _, rfl, List.mem_map_of_mem hk⟩
        · simp only [hn, decide_false, Bool.false_eq_true, if_false]
          refine ⟨fun hc => ?_, fun hc => hc.2.1.elim⟩
          obtain ⟨_, _, hc, _⟩ := hc
          cases hc
    · rw [if_neg ht]
      unfold Listed
      rw [hlookup, if_neg ht]

theorem Tags.fold (h : Typed pre db) (now : Time) (key : String) (ttl : Int)
    (r : Except Exn Unit) (tags : List String) :
    Tags pre db (tags.foldl (RedisCacheStore.addTag pre now key ttl) (r, db)).2 now key ttl tags := by
  induction tags generalizing db r with
  | nil => exact ⟨h, fun _ => rfl, fun _ _ _ => by simp⟩
  | cons tag rest ih =>
    have h₁ := Tags.one h now key ttl r tag
    have h₂ := ih h₁.typed (RedisCacheStore.addTag pre now key ttl (r, db) tag).1
    rw [List.foldl_cons]
    refine ⟨h₂.typed, fun k => (h₂.value k).trans (h₁.value k), fun now' k t => ?_⟩
    refine (h₂.listed now' k t).trans ?_
    simp only [h₁.listed, List.mem_cons, List.not_mem_nil, or_false]
    by_cases htr : t ∈ rest
    · simp only [htr, or_true, if_true]
      by_cases ht : t = tag
      · subst ht
        simp only [if_true]
        refine and_congr_right fun hpos => and_congr_right fun _ => ?_
        have hnow : now < now + ttl := by
          have : (0 : Time) < (ttl : Time) := by exact_mod_cast hpos
          linarith
        tauto
      · simp only [ht, if_false]
    · simp only [htr, or_false, if_false]

/-! ## A call -/

theorem Typed.mem_keys (h : Typed pre db) (now : Time) (t : String) : ∃ ms : List String,
    db.smembers now (tagKey pre t) = .ok ms ∧
      ∀ m, m ∈ ms ↔ ∃ k, m = valueKey pre k ∧ Listed pre db now k t := by
  unfold RedisServer.smembers
  rcases h.lookup_tag now t with ⟨hl, hno⟩ | ⟨ks, x, -, hl, hks⟩
  · rw [hl]
    exact ⟨[], rfl, fun m => ⟨fun hm => absurd hm List.not_mem_nil,
      fun ⟨k, _, hk⟩ => absurd hk (hno k)⟩⟩
  · rw [hl]
    refine ⟨_, rfl, fun m => ?_⟩
    rw [List.mem_map]
    exact ⟨fun ⟨k, hk, he⟩ => ⟨k, he.symm, (hks k).1 hk⟩, fun ⟨k, he, hk⟩ => ⟨k, (hks k).2 hk, he.symm⟩⟩

theorem Typed.keysOf (h : Typed pre db) (now : Time) (tags : List String) :
    ∃ ms : List String, RedisCacheStore.keysOf pre db now tags = .ok ms ∧
      ∀ m, m ∈ ms ↔ ∃ k, m = valueKey pre k ∧ ∃ t ∈ tags, Listed pre db now k t := by
  have hall : ∃ mss : List (List String),
      (tags.mapM fun tag => db.smembers now (tagKey pre tag)) = .ok mss ∧
        ∀ m, m ∈ mss.flatten ↔ ∃ k, m = valueKey pre k ∧ ∃ t ∈ tags, Listed pre db now k t := by
    induction tags with
    | nil => exact ⟨[], rfl, fun m => by simp⟩
    | cons t rest ih =>
      obtain ⟨ms, hms, hmem⟩ := h.mem_keys now t
      obtain ⟨mss, hmss, hmems⟩ := ih
      refine ⟨ms :: mss, by rw [List.mapM_cons, hms, hmss]; rfl, fun m => ?_⟩
      rw [List.flatten_cons, List.mem_append, hmem, hmems]
      constructor
      · rintro (⟨k, he, hk⟩ | ⟨k, he, u, hu, hk⟩)
        · exact ⟨k, he, t, List.mem_cons_self, hk⟩
        · exact ⟨k, he, u, List.mem_cons_of_mem _ hu, hk⟩
      · rintro ⟨k, he, u, hu, hk⟩
        rcases List.mem_cons.1 hu with rfl | hu
        · exact .inl ⟨k, he, hk⟩
        · exact .inr ⟨k, he, u, hu, hk⟩
  obtain ⟨mss, hmss, hmem⟩ := hall
  refine ⟨mss.flatten.dedup, ?_, fun m => by rw [List.mem_dedup, hmem]⟩
  rw [RedisCacheStore.keysOf, hmss]
  rfl

/-- What an entry shows does not depend on the others. -/
theorem readable_congr {db db' : RedisServer V} {k : String}
    (h : Dict.get db' (valueKey pre k) = Dict.get db (valueKey pre k)) (now : Time) :
    Readable pre db' now k ↔ Readable pre db now k := by
  simp only [Readable, RedisServer.lookup, h]

theorem listed_congr {db db' : RedisServer V} {t : String}
    (h : Dict.get db' (tagKey pre t) = Dict.get db (tagKey pre t)) (now : Time) (k : String) :
    Listed pre db' now k t ↔ Listed pre db now k t := by
  simp only [Listed, RedisServer.lookup, h]

theorem Shows.set (h : Shows pre db past) (now : Time) (key : String) (value : V) (ttl : Int)
    (tags : List String) : Shows pre (RedisCacheStore.set pre db now key value ttl tags).2
      (⟨.set key value ttl tags, now⟩ :: past) := by
  unfold RedisCacheStore.set
  by_cases hz : ttl ≤ 0
  · rw [show db.setEx now (valueKey pre key) value ttl = (.error (.other "ResponseError"), db) from
      if_pos hz]
    have ht := Tags.fold h.typed now key ttl (.error (.other "ResponseError")) tags
    refine ⟨ht.typed, fun now' k => ?_, fun now' k t => ?_⟩
    · simp only [Alive]
      rw [if_neg fun hc => absurd hc.2 (not_lt.2 hz), readable_congr (ht.value k), h.readable]
    · simp only [Covered]
      rw [ht.listed]
      simp only [h.listed]
  · have hpos : 0 < ttl := not_le.1 hz
    rw [show db.setEx now (valueKey pre key) value ttl =
      (.ok (), Dict.set db (valueKey pre key) ⟨.string value, some (now + ttl)⟩) from if_neg hz]
    have htag : ∀ t, Dict.get (Dict.set db (valueKey pre key)
        (⟨.string value, some (now + ttl)⟩ : RedisEntry V)) (tagKey pre t) =
          Dict.get db (tagKey pre t) :=
      fun t => Dict.get_set_ne (Ne.symm (valueKey_ne_tagKey pre key t))
    have htyped : Typed pre (Dict.set db (valueKey pre key)
        (⟨.string value, some (now + ttl)⟩ : RedisEntry V)) := by
      refine ⟨fun k e he => ?_, fun t e he => h.typed.tag t e (by rw [← htag]; exact he)⟩
      rw [Dict.get_set] at he
      split at he
      · cases he; exact ⟨_, _, rfl⟩
      · exact h.typed.value k e he
    have ht := Tags.fold htyped now key ttl (.ok ()) tags
    refine ⟨ht.typed, fun now' k => ?_, fun now' k t => ?_⟩
    · simp only [Alive]
      rw [readable_congr (ht.value k), Readable, RedisServer.lookup_set]
      by_cases hk : key = k
      · rw [if_pos (congrArg (valueKey pre) hk.symm), if_pos ⟨hk, hpos⟩]
        simp only [Option.filter_some, Option.all_some]
        by_cases hn : now' < now + ttl <;> simp [hn]
      · rw [if_neg fun hc => hk (valueKey_inj hc).symm, if_neg fun hc => hk hc.1]
        exact h.readable now' k
    · simp only [Covered]
      rw [ht.listed]
      simp only [listed_congr (htag t), h.listed]

theorem Shows.delete (h : Shows pre db past) (now : Time) (key : String) :
    Shows pre (db.del [valueKey pre key]) (⟨.delete key, now⟩ :: past) := by
  have hget : ∀ key', Dict.get (db.del [valueKey pre key]) key' =
      if key' = valueKey pre key then none else Dict.get db key' := fun key' => by
    rw [RedisServer.get_del]
    simp only [List.mem_singleton]
  have htag : ∀ t, Dict.get (db.del [valueKey pre key]) (tagKey pre t) =
      Dict.get db (tagKey pre t) := fun t => by
    rw [hget, if_neg (Ne.symm (valueKey_ne_tagKey pre key t))]
  refine ⟨⟨fun k e he => ?_, fun t e he => h.typed.tag t e (by rw [← htag]; exact he)⟩,
    fun now' k => ?_, fun now' k t => ?_⟩
  · rw [hget] at he
    split at he
    · cases he
    · exact h.typed.value k e he
  · simp only [Alive]
    by_cases hk : key = k
    · rw [Readable, RedisServer.lookup, hget, if_pos (congrArg (valueKey pre) hk.symm)]
      simp [hk]
    · have hkeep : Dict.get (db.del [valueKey pre key]) (valueKey pre k) =
          Dict.get db (valueKey pre k) := by
        rw [hget, if_neg fun hc => hk (valueKey_inj hc).symm]
      rw [readable_congr hkeep, h.readable]
      exact (and_iff_right hk).symm
  · simp only [Covered]
    rw [listed_congr (htag t), h.listed]

theorem Shows.invalidateTags (h : Shows pre db past) (now : Time) (tags : List String) :
    Shows pre (RedisCacheStore.invalidateTags pre db now tags).2
      (⟨.invalidateTags tags, now⟩ :: past) := by
  obtain ⟨ms, hms, hmem⟩ := h.typed.keysOf now tags
  have hdb : (RedisCacheStore.invalidateTags pre db now tags).2 =
      (db.del ms).del (tags.map (tagKey pre)) := by
    rw [RedisCacheStore.invalidateTags, hms]
  have hvalue : ∀ k, Dict.get ((db.del ms).del (tags.map (tagKey pre))) (valueKey pre k) =
      if valueKey pre k ∈ ms then none else Dict.get db (valueKey pre k) := fun k => by
    rw [RedisServer.get_del, if_neg, RedisServer.get_del]
    rintro hc
    obtain ⟨t, -, ht⟩ := List.mem_map.1 hc
    exact valueKey_ne_tagKey pre k t ht.symm
  have htag : ∀ t, Dict.get ((db.del ms).del (tags.map (tagKey pre))) (tagKey pre t) =
      if t ∈ tags then none else Dict.get db (tagKey pre t) := fun t => by
    have hiff : tagKey pre t ∈ tags.map (tagKey pre) ↔ t ∈ tags := by
      constructor
      · intro hc
        obtain ⟨u, hu, he⟩ := List.mem_map.1 hc
        exact tagKey_inj he ▸ hu
      · exact fun ht => List.mem_map_of_mem ht
    have hnot : tagKey pre t ∉ ms := fun hc => by
      obtain ⟨k, he, -⟩ := (hmem _).1 hc
      exact valueKey_ne_tagKey pre k t he.symm
    rw [RedisServer.get_del, RedisServer.get_del, if_neg hnot]
    simp only [hiff]
  rw [hdb]
  refine ⟨⟨fun k e he => ?_, fun t e he => ?_⟩, fun now' k => ?_, fun now' k t => ?_⟩
  · rw [hvalue] at he
    split at he
    · cases he
    · exact h.typed.value k e he
  · rw [htag] at he
    split at he
    · cases he
    · exact h.typed.tag t e he
  · simp only [Alive]
    have hin : valueKey pre k ∈ ms ↔ ∃ t ∈ tags, Covered past now k t := by
      rw [hmem]
      constructor
      · rintro ⟨k', he, t, ht, hl⟩
        exact ⟨t, ht, (h.listed now k t).1 (valueKey_inj he ▸ hl)⟩
      · rintro ⟨t, ht, hc⟩
        exact ⟨k, rfl, t, ht, (h.listed now k t).2 hc⟩
    by_cases hk : valueKey pre k ∈ ms
    · obtain ⟨t, ht, hc⟩ := hin.1 hk
      rw [Readable, RedisServer.lookup, hvalue, if_pos hk]
      exact iff_of_false (by simp) fun hc' => hc'.1 t ht hc
    · have hkeep := hvalue k
      rw [if_neg hk] at hkeep
      rw [readable_congr hkeep, h.readable]
      exact (and_iff_right fun t ht hc => hk (hin.2 ⟨t, ht, hc⟩)).symm
  · simp only [Covered]
    by_cases ht : t ∈ tags
    · rw [Listed, RedisServer.lookup, htag, if_pos ht]
      exact iff_of_false (by rintro ⟨_, _, hc, _⟩; cases hc) fun hc => hc.1 ht
    · have hkeep := htag t
      rw [if_neg ht] at hkeep
      rw [listed_congr hkeep, h.listed]
      exact (and_iff_right ht).symm

/-- **The server holds what the calls say.** -/
theorem shows (pre : String) : ∀ calls : List (CacheAccess V), Shows pre (after pre calls) calls
  | [] => by
    refine ⟨⟨fun k e he => (by cases he), fun t e he => (by cases he)⟩, fun now k => ?_,
      fun now k t => ?_⟩
    · exact iff_of_false (by simp [Readable, RedisServer.lookup, after, Dict.get]) id
    · exact iff_of_false (by rintro ⟨_, _, hc, _⟩; cases hc) id
  | ⟨op, now⟩ :: past => by
    have h := shows pre past
    cases op with
    | get key => exact ⟨h.typed, h.readable, h.listed⟩
    | set key value ttl tags => exact h.set now key value ttl tags
    | delete key => exact h.delete now key
    | invalidateTags tags => exact h.invalidateTags now tags

end RedisCacheStore

/-! ## Invalidation -/

/-- The clock does not go back; the latest call comes first. -/
def Clocked (calls : List (CacheAccess V)) : Prop := calls.Pairwise fun c d => d.now ≤ c.now

/-- Nothing is set under the key. -/
def Unset (calls : List (CacheAccess V)) (k : String) : Prop :=
  ∀ c ∈ calls, ∀ value ttl tags, c.op ≠ .set k value ttl tags

/-- After `invalidate_tags(tags)` at the time `now`, no value that was last set with one of the
    tags before the call is ever readable again. -/
def Invalidates (readable : List (CacheAccess V) → Time → String → Prop)
    (past : List (CacheAccess V)) (now : Time) (tags : List String) : Prop :=
  ∀ more later k, Clocked (⟨.get k, later⟩ :: (more ++ ⟨.invalidateTags tags, now⟩ :: past)) →
    Unset more k → (∃ t ∈ tags, t ∈ lastTags past k) →
    ¬ readable (more ++ ⟨.invalidateTags tags, now⟩ :: past) later k

def InMemoryCacheStore.readable (order : List String → List String) (maxEntries : Nat)
    (calls : List (CacheAccess V)) (now : Time) (k : String) : Prop :=
  ((after order maxEntries calls).get now k).1 ≠ none

def RedisCacheStore.readable (pre : String) (calls : List (CacheAccess V)) (now : Time)
    (k : String) : Prop :=
  (after pre calls).get now (valueKey pre k) ≠ .ok none

theorem RedisCacheStore.readable_iff (pre : String) (calls : List (CacheAccess V)) (now : Time)
    (k : String) : readable pre calls now k ↔ Alive calls now k := by
  have h := shows pre calls
  rw [← h.readable, readable, RedisServer.get, Readable]
  rcases hl : (after pre calls).lookup now (valueKey pre k) with _ | e
  · simp
  · obtain ⟨v, x, rfl⟩ := h.typed.value k e (Option.filter_eq_some_iff.1 hl).1
    simp

theorem Alive.earlier {calls : List (CacheAccess V)} {now later : Time} {k : String}
    (h : Alive calls later k) (hle : now ≤ later) : Alive calls now k := by
  induction calls with
  | nil => exact h
  | cons c past ih =>
    obtain ⟨op, t⟩ := c
    cases op with
    | get key => exact ih h
    | set key value ttl tags =>
      simp only [Alive] at h ⊢
      split
      · rename_i hk; rw [if_pos hk] at h; exact lt_of_le_of_lt hle h
      · rename_i hk; rw [if_neg hk] at h; exact ih h
    | delete key => exact ⟨h.1, ih h.2⟩
    | invalidateTags tags => exact ⟨h.1, ih h.2⟩

/-- A value that has gone does not come back. -/
theorem Alive.of_append {more past : List (CacheAccess V)} {now : Time} {k : String}
    (hu : Unset more k) (h : Alive (more ++ past) now k) : Alive past now k := by
  induction more with
  | nil => exact h
  | cons c more ih =>
    refine ih (fun d hd => hu d (List.mem_cons_of_mem _ hd)) ?_
    obtain ⟨op, t⟩ := c
    cases op with
    | get key => exact h
    | set key value ttl tags =>
      have hne : key ≠ k := fun he => hu _ List.mem_cons_self value ttl tags (he ▸ rfl)
      simp only [List.cons_append, Alive, hne, false_and, if_false] at h
      exact h
    | delete key => exact h.2
    | invalidateTags tags => exact h.2

theorem InMemoryCacheStore.standing_append {more past : List (CacheAccess V)} {k : String}
    {i : CacheItem V} (hu : Unset more k) (h : standing (more ++ past) k = some i) :
    standing past k = some i := by
  induction more with
  | nil => exact h
  | cons c more ih =>
    refine ih (fun d hd => hu d (List.mem_cons_of_mem _ hd)) ?_
    obtain ⟨op, t⟩ := c
    cases op with
    | get key => exact h
    | set key value ttl tags =>
      have hne : key ≠ k := fun he => hu _ List.mem_cons_self value ttl tags (he ▸ rfl)
      simp only [List.cons_append, standing, hne, if_false] at h
      exact h
    | delete key =>
      simp only [List.cons_append, standing] at h
      split at h
      · cases h
      · exact h
    | invalidateTags tags => exact (Option.filter_eq_some_iff.1 h).1

/-- An item that has not expired is the one that was last set. -/
theorem InMemoryCacheStore.tags_of_standing {past : List (CacheAccess V)} {k : String}
    {i : CacheItem V} {now : Time} (hc : ∀ c ∈ past, c.now ≤ now) (h : standing past k = some i)
    (hi : now < i.expiresAt) : i.tags = lastTags past k := by
  induction past with
  | nil => cases h
  | cons c past ih =>
    have ih' := ih fun d hd => hc d (List.mem_cons_of_mem _ hd)
    have hle := hc c List.mem_cons_self
    obtain ⟨op, t⟩ := c
    cases op with
    | get key => exact ih' h
    | set key value ttl tags =>
      simp only [standing] at h
      simp only [lastTags]
      split at h
      · rename_i hk
        cases h
        have hpos : 0 < ttl := by
          have hcast : (0 : Time) < (ttl : Time) := by
            dsimp only at hi hle
            linarith
          exact_mod_cast hcast
        rw [if_pos ⟨hk, hpos⟩]
      · rename_i hk
        rw [if_neg fun hc => hk hc.1]
        exact ih' h
    | delete key =>
      simp only [standing] at h
      split at h
      · cases h
      · exact ih' h
    | invalidateTags tags => exact ih' (Option.filter_eq_some_iff.1 h).1

/-- The store in memory removes them all. -/
theorem InMemoryCacheStore.invalidates {order : List String → List String} {maxEntries : Nat}
    (horder : ∀ l, (order l).Perm l) (hmax : 1 ≤ maxEntries) (past : List (CacheAccess V))
    (now : Time) (tags : List String) :
    Invalidates (readable order maxEntries) past now tags := by
  rintro more later k hclock hu ⟨t, ht, htk⟩ hr
  have hh := holds horder hmax (more ++ ⟨.invalidateTags tags, now⟩ :: past)
  unfold InMemoryCacheStore.readable InMemoryCacheStore.get at hr
  rcases hi : (after order maxEntries (more ++ ⟨.invalidateTags tags, now⟩ :: past)).items.get k
    with _ | i
  · rw [hi] at hr; exact hr rfl
  · rw [hi] at hr
    by_cases he : i.expiresAt ≤ later
    · simp only [he, if_true] at hr
      exact hr rfl
    · have hstand := standing_append hu (hh.standing k i hi)
      obtain ⟨hpast, hall⟩ := Option.filter_eq_some_iff.1 hstand
      have hle : ∀ c ∈ past, c.now ≤ later := fun c hc =>
        (List.pairwise_cons.1 hclock).1 c
          (List.mem_append_right _ (List.mem_cons_of_mem _ hc))
      have htags := tags_of_standing hle hpast (not_le.1 he)
      have := List.all_eq_true.1 hall t (htags ▸ htk)
      simp only [decide_eq_true_eq] at this
      exact this ht

/-- **Tag invalidation in the two stores**: the store in memory always removes the values last set
    with one of the tags, and Redis just when each of them that is alive is covered by one of the
    tags. -/
theorem tag_invalidation_iff {order : List String → List String} {maxEntries : Nat}
    (horder : ∀ l, (order l).Perm l) (hmax : 1 ≤ maxEntries) (pre : String)
    (past : List (CacheAccess V)) (now : Time) (tags : List String)
    (hclock : Clocked (⟨.invalidateTags tags, now⟩ :: past)) :
    Invalidates (InMemoryCacheStore.readable order maxEntries) past now tags ∧
    (Invalidates (RedisCacheStore.readable pre) past now tags ↔
      ∀ k, (∃ t ∈ tags, t ∈ lastTags past k) → Alive past now k →
        ∃ t ∈ tags, Covered past now k t) := by
  refine ⟨InMemoryCacheStore.invalidates horder hmax past now tags, fun h k hk halive => ?_,
    fun h more later k hc hu hk hr => ?_⟩
  · by_contra hno
    refine h [] now k ?_ (fun c hc => absurd hc List.not_mem_nil) hk
      ((RedisCacheStore.readable_iff pre _ now k).2 ?_)
    · refine List.pairwise_cons.2 ⟨fun c hc => ?_, hclock⟩
      rcases List.mem_cons.1 hc with rfl | hc
      · exact le_refl _
      · exact (List.pairwise_cons.1 hclock).1 c hc
    · exact ⟨fun t ht hcov => hno ⟨t, ht, hcov⟩, halive⟩
  · have halive := Alive.of_append hu ((RedisCacheStore.readable_iff pre _ later k).1 hr)
    obtain ⟨hnone, hpast⟩ := halive
    have hle : now ≤ later := (List.pairwise_cons.1 hc).1 ⟨.invalidateTags tags, now⟩
      (List.mem_append_right _ List.mem_cons_self)
    obtain ⟨t, ht, hcov⟩ := h k hk (hpast.earlier hle)
    exact hnone t ht hcov

/-- Two values with one tag; the second one, set for a second, takes the tag set with it. -/
def sharedTag : List (CacheAccess Nat) :=
  [⟨.set "b" 2 1 ["t"], 0⟩, ⟨.set "a" 1 100 ["t"], 0⟩]

theorem sharedTag_clocked (now : Time) (h : 0 ≤ now) :
    Clocked (⟨.invalidateTags ["t"], now⟩ :: sharedTag) := by
  simp [Clocked, sharedTag, h]

theorem tag_invalidation_sample :
    Invalidates (RedisCacheStore.readable "traccia-runtime:cache") sharedTag (1 / 2) ["t"] := by
  have h := tag_invalidation_iff (fun _ => .refl (id _)) (le_refl 1) "traccia-runtime:cache"
    sharedTag (1 / 2) ["t"] (sharedTag_clocked _ (by norm_num))
  refine h.2.2 fun k hk _ => ⟨"t", List.mem_singleton_self _, ?_⟩
  obtain ⟨t, -, htk⟩ := hk
  have hkey : k = "b" ∨ k = "a" := by
    by_contra hno
    simp only [not_or] at hno
    simp [sharedTag, lastTags, Ne.symm hno.1, Ne.symm hno.2] at htk
  rcases hkey with rfl | rfl <;> simp [sharedTag, Covered] <;> norm_num

/-- At two seconds the tag set is gone, and the first value outlives its invalidation. -/
theorem tag_outlived : Clocked (⟨.invalidateTags ["t"], 2⟩ :: sharedTag) ∧
    ¬ Invalidates (RedisCacheStore.readable "traccia-runtime:cache") sharedTag 2 ["t"] := by
  refine ⟨sharedTag_clocked 2 (by norm_num), fun h => ?_⟩
  refine h [] 2 "a" ?_ (fun c hc => absurd hc List.not_mem_nil) ?_
    ((RedisCacheStore.readable_iff _ _ 2 "a").2 ⟨?_, ?_⟩)
  · simp [Clocked, sharedTag]
  · simp [sharedTag, lastTags]
  · simp [sharedTag, Covered]
  · simp [sharedTag, Alive]; norm_num

end TracciaRuntime
