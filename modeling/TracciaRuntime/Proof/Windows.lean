/-
  The messages that the memory stores return.

  * `Appends`: the appends to a session, and the time of a read after them;
  * `get_map`, `range_eq`: Redis reads the slice that is read in memory;
  * `Keeps`, `foldl_keeps`: what Redis has lost is expired; `postgres_eq`: the table returns the
    window;
  * `memory_window_iff`: all three stores return the last unexpired messages, exactly if the
    messages they were asked for have not expired, or if nothing was said where they were asked
    for none.
-/
import TracciaRuntime.Persistence.Memory
import TracciaRuntime.Py.Result
import Mathlib.Tactic.Linarith

namespace TracciaRuntime

open Py

variable {M : Type}

/-- An append to a session. -/
structure Append (M : Type) where
  time : Time
  messages : List M

/-- Appends to a session in the order of the clock, and the time of a read after them. -/
structure Appends (M : Type) where
  calls : List (Append M)
  now : Time
  ordered : (calls.map Append.time).Pairwise (· ≤ ·)
  past : ∀ c ∈ calls, c.time ≤ now

/-- The messages of some appends, with their times. -/
def saidBy (calls : List (Append M)) : List (Time × M) :=
  calls.flatMap fun c => c.messages.map (c.time, ·)

namespace Appends
variable (x : Appends M)

/-- The message is not older than the retention allows. -/
abbrev Unexpired (retention : Int) (m : Time × M) : Prop := x.now < m.1 + retention

def unexpired (retention : Int) : List (Time × M) :=
  (saidBy x.calls).filter fun m => x.Unexpired retention m

/-- The most recent unexpired messages, `limit` of them if there are so many. -/
def window (retention : Int) (limit : Nat) : List M :=
  ((x.unexpired retention).drop ((x.unexpired retention).length - limit)).map (·.2)

/-- What a new store in memory returns after the appends. -/
def inMemory (tenantId sessionId : String) (limit : Nat) : List M :=
  let s := x.calls.foldl (fun s c => InMemoryMemoryStore.append s tenantId sessionId c.messages) []
  InMemoryMemoryStore.get (InMemoryMemoryStore.log s tenantId sessionId) limit

/-- What a new Redis server returns. -/
def redis (s : RedisMemoryStore M) (tenantId sessionId : String) (limit : Nat) :
    Except Exn (List M) :=
  s.get (x.calls.foldl (fun db c => s.append db c.time tenantId sessionId c.messages) []) x.now
    tenantId sessionId limit

/-- What an empty table returns. -/
def postgres (s : PostgresMemoryStore M) (tenantId sessionId : String) (limit : Nat) :
    Except Exn (List M) :=
  s.get (x.calls.foldl (fun table c => s.append table c.time tenantId sessionId c.messages) [])
    x.now tenantId sessionId limit

/-- Nothing that is asked for has expired; who asks for no message gets what was said. -/
def Fresh (retention : Int) (limit : Nat) : Prop :=
  if limit = 0 then saidBy x.calls = []
  else ∀ m ∈ (saidBy x.calls).drop ((saidBy x.calls).length - limit), x.Unexpired retention m

end Appends

/-! ## Slices -/

namespace InMemoryMemoryStore
variable {α β : Type} {k l : List α} {limit : Nat}

theorem get_map (f : α → β) : get (l.map f) limit = (get l limit).map f := by
  rw [get, get, List.length_map, ← List.map_drop]
  split <;> rfl

theorem get_suffix : get l limit <:+ l := by
  rw [get]
  split
  · exact List.suffix_rfl
  · exact List.drop_suffix ..

theorem length_get (h : limit ≠ 0) : (get l limit).length = min limit l.length := by
  rw [get, if_neg h, List.length_drop]
  omega

/-- A list with the slice in it has the same slice. -/
theorem get_of_suffix (h : limit ≠ 0) (hk : get l limit <:+ k) (hl : k <:+ l) :
    get k limit = get l limit := by
  have hlen : (get k limit).length = (get l limit).length := by
    have h₁ := hk.length_le
    have h₂ := hl.length_le
    rw [length_get h] at h₁ ⊢
    rw [length_get h]
    omega
  exact (List.suffix_of_suffix_length_le (get_suffix.trans hl) get_suffix hlen.le).eq_of_length hlen

end InMemoryMemoryStore

/-! ## Redis -/

namespace RedisLists
variable {db : RedisLists} {key : String} {values : List String} {limit : Nat} {now : Time}

/-- What the list of a key holds. -/
def elements (db : RedisLists) (now : Time) (key : String) : List String :=
  ((db.lookup now key).map RedisList.values).getD []

/-- The last `limit` elements are asked for as in memory; the index `-0` is the first one, too. -/
theorem range_eq : range values (-limit) (-1) = InMemoryMemoryStore.get values limit := by
  have hstop : (index values.length (-1) + 1).toNat = values.length := by
    rw [index, if_pos (by decide)]
    omega
  rw [range, hstop, List.take_length, InMemoryMemoryStore.get]
  split_ifs with h
  · subst h
    rfl
  · congr 1
    rw [index, if_pos (by omega)]
    omega

theorem lrange_eq :
    db.lrange now key (-limit) (-1) = InMemoryMemoryStore.get (db.elements now key) limit := by
  unfold lrange RedisLists.elements
  cases db.lookup now key with
  | none => simp [InMemoryMemoryStore.get]
  | some e => exact range_eq

theorem lookup_rpush (db : RedisLists) (now : Time) (key : String) (values : List String) :
    ∃ t, (db.rpush now key values).lookup now key =
      some ⟨db.elements now key ++ values, t⟩ := by
  unfold rpush RedisLists.elements
  cases h : db.lookup now key with
  | none => exact ⟨none, by simp [lookup]⟩
  | some e =>
    refine ⟨e.expiresAt, ?_⟩
    have := (Option.filter_eq_some_iff.1 h).2
    simp [lookup, this]

theorem values_expire {seconds : Int} {e : RedisList} (h : db.lookup now key = some e) {t : Time}
    (ht : now ≤ t) : (db.expire now key seconds).elements t key =
      if t < now + seconds then e.values else [] := by
  unfold expire
  rw [h]
  dsimp only
  split_ifs with hs hlt hlt
  · have : (seconds : Time) ≤ 0 := by exact_mod_cast hs
    linarith
  · simp [RedisLists.elements, lookup, Dict.get_erase]
  · simp [RedisLists.elements, lookup, Option.filter_some, hlt]
  · simp [RedisLists.elements, lookup, Option.filter_some, hlt]

end RedisLists

namespace RedisMemoryStore
variable {s : RedisMemoryStore M} {tenantId sessionId : String} {db : RedisLists}
  {l : List (Time × M)} {t now : Time}

/-- What Redis has lost of the messages `l` had expired; the last of them was said at `t`. -/
def Keeps (s : RedisMemoryStore M) (tenantId sessionId : String) (db : RedisLists)
    (l : List (Time × M)) (t now : Time) : Prop :=
  (∀ m ∈ l, m.1 ≤ t) ∧ t ≤ now ∧ ∃ lost kept, l = lost ++ kept ∧
    (∀ m ∈ lost, m.1 + s.retention ≤ now) ∧
    db.elements now (key tenantId sessionId) = kept.map fun m => s.json.dump m.2

/-- **An append** starts the time to live again. -/
theorem append_keeps {t' : Time} (h : ∀ now, t ≤ now → s.Keeps tenantId sessionId db l t now)
    (ht : t ≤ t') (messages : List M) (hnow : t' ≤ now) :
    s.Keeps tenantId sessionId (s.append db t' tenantId sessionId messages)
      (l ++ messages.map (t', ·)) t' now := by
  have hpast : ∀ m ∈ l ++ messages.map (t', ·), m.1 ≤ t' := by
    intro m hm
    rcases List.mem_append.1 hm with hm | hm
    · exact ((h t le_rfl).1 m hm).trans ht
    · obtain ⟨_, _, rfl⟩ := List.mem_map.1 hm
      exact le_rfl
  refine ⟨hpast, hnow, ?_⟩
  unfold append
  split_ifs with hm
  · obtain ⟨-, -, lost, kept, rfl, hlost, hkept⟩ := h now (ht.trans hnow)
    refine ⟨lost, kept, by simp [hm], hlost, hkept⟩
  · obtain ⟨-, -, lost, kept, rfl, hlost, hkept⟩ := h t' ht
    obtain ⟨e, he⟩ := RedisLists.lookup_rpush db t' (key tenantId sessionId)
      (messages.map s.json.dump)
    rw [RedisLists.values_expire he hnow]
    split_ifs with hlt
    · refine ⟨lost, kept ++ messages.map (t', ·), List.append_assoc .., fun m hm => ?_, ?_⟩
      · exact (hlost m hm).trans hnow
      · rw [hkept]
        simp
    · refine ⟨_, [], (List.append_nil _).symm, fun m hm => ?_, rfl⟩
      have := hpast m hm
      linarith

theorem foldl_keeps {calls : List (Append M)}
    (h : ∀ now, t ≤ now → s.Keeps tenantId sessionId db l t now)
    (hordered : (t :: calls.map Append.time).Pairwise (· ≤ ·)) (ht : t ≤ now)
    (hpast : ∀ c ∈ calls, c.time ≤ now) :
    ∃ t', s.Keeps tenantId sessionId
      (calls.foldl (fun db c => s.append db c.time tenantId sessionId c.messages) db)
      (l ++ saidBy calls) t' now := by
  induction calls generalizing db l t with
  | nil => exact ⟨t, (List.append_nil l).symm ▸ h now ht⟩
  | cons c calls ih =>
    obtain ⟨hle, hordered⟩ := List.pairwise_cons.1 hordered
    have := ih (fun _ => append_keeps h (hle _ List.mem_cons_self) c.messages) hordered
      (hpast c List.mem_cons_self) fun c hc => hpast c (List.mem_cons_of_mem _ hc)
    rwa [List.append_assoc] at this

end RedisMemoryStore

/-! ## Windows -/

namespace Appends
variable {x : Appends M} {tenantId sessionId : String} {limit : Nat} {retention : Int}

theorem inMemory_eq : x.inMemory tenantId sessionId limit =
    (InMemoryMemoryStore.get (saidBy x.calls) limit).map (·.2) := by
  have hlog : ∀ (calls : List (Append M)) (s : InMemoryMemoryStore M),
      InMemoryMemoryStore.log (calls.foldl
        (fun s c => InMemoryMemoryStore.append s tenantId sessionId c.messages) s)
        tenantId sessionId = InMemoryMemoryStore.log s tenantId sessionId ++ (saidBy calls).map (·.2) := by
    intro calls
    induction calls with
    | nil => exact fun s => (List.append_nil _).symm
    | cons c calls ih =>
      intro s
      rw [List.foldl_cons, ih]
      simp [InMemoryMemoryStore.append, InMemoryMemoryStore.log, saidBy]
  rw [inMemory, hlog, ← InMemoryMemoryStore.get_map]
  rfl

theorem redis_keeps (x : Appends M) (s : RedisMemoryStore M) (tenantId sessionId : String) :
    ∃ t, s.Keeps tenantId sessionId
      (x.calls.foldl (fun db c => s.append db c.time tenantId sessionId c.messages) [])
      (saidBy x.calls) t x.now := by
  have hempty : ∀ t now : Time, t ≤ now → s.Keeps tenantId sessionId [] [] t now :=
    fun t now h => ⟨nofun, h, [], [], rfl, nofun, rfl⟩
  have hordered := x.ordered
  have hpast := x.past
  cases hcalls : x.calls with
  | nil => exact ⟨x.now, hempty _ _ le_rfl⟩
  | cons c calls =>
    rw [hcalls] at hordered hpast
    refine ⟨_, (RedisMemoryStore.foldl_keeps (hempty c.time)
      (List.pairwise_cons.2 ⟨fun t ht => ?_, hordered⟩) (hpast c List.mem_cons_self)
      hpast).choose_spec⟩
    rcases List.mem_cons.1 ht with rfl | ht
    · exact le_rfl
    · exact (List.pairwise_cons.1 hordered).1 t ht

/-- What the codec gives back of stored messages. -/
theorem decode {json : MessageJson M} {l : List (Time × M)}
    (h : ∀ m ∈ l, json.validate (json.dump m.2) = .ok m.2) :
    (l.map fun m => json.dump m.2).mapM json.validate = .ok (l.map (·.2)) := by
  rw [mapM_eq_ok, List.forall₂_map_left_iff, List.forall₂_map_right_iff, List.forall₂_same]
  exact h

theorem unexpired_subset : x.unexpired retention ⊆ saidBy x.calls := List.filter_subset_self _

/-- **The table** returns the window. -/
theorem postgres_eq {s : PostgresMemoryStore M}
    (hjson : ∀ m ∈ saidBy x.calls, s.json.validate (s.json.dump m.2) = .ok m.2) :
    x.postgres s tenantId sessionId limit = .ok (x.window s.retentionSeconds limit) := by
  have htable : ∀ (calls : List (Append M)) (table : List MemoryRow),
      calls.foldl (fun table c => s.append table c.time tenantId sessionId c.messages) table =
        table ++ (saidBy calls).map fun m => s.row m.1 tenantId sessionId m.2 := by
    intro calls
    induction calls with
    | nil => exact fun table => (List.append_nil _).symm
    | cons c calls ih =>
      intro table
      rw [List.foldl_cons, ih, PostgresMemoryStore.append, List.foldl_append_eq_append,
        ← List.flatMap_def, ← List.map_eq_flatMap]
      simp [saidBy, Function.comp_def]
  have hfilter : ((saidBy x.calls).map fun m => s.row m.1 tenantId sessionId m.2).filter
      (fun row => (row.tenantId = tenantId ∧ row.sessionId = sessionId) ∧
        row.expiresAt.all fun t => t > x.now) =
      (x.unexpired s.retentionSeconds).map fun m => s.row m.1 tenantId sessionId m.2 := by
    rw [List.filter_map, unexpired]
    congr 1
    refine List.filter_congr fun m _ => ?_
    simp [PostgresMemoryStore.row]
  have hdecode := decode (l := (x.unexpired s.retentionSeconds).drop
    ((x.unexpired s.retentionSeconds).length - limit)) fun m hm =>
      hjson m (unexpired_subset (List.mem_of_mem_drop hm))
  rw [List.mapM_map] at hdecode
  rw [postgres, htable, List.nil_append, PostgresMemoryStore.get, hfilter, List.take_reverse,
    List.reverse_reverse, List.length_map, ← List.map_drop, List.mapM_map]
  exact hdecode

theorem saidBy_pairwise {calls : List (Append M)} (h : (calls.map Append.time).Pairwise (· ≤ ·)) :
    (saidBy calls).Pairwise fun m m' => m.1 ≤ m'.1 := by
  induction calls with
  | nil => exact List.Pairwise.nil
  | cons c calls ih =>
    obtain ⟨hle, hordered⟩ := List.pairwise_cons.1 h
    rw [saidBy, List.flatMap_cons, List.pairwise_append]
    refine ⟨?_, ih hordered, fun m hm m' hm' => ?_⟩
    · rw [List.pairwise_map]
      exact List.pairwise_of_forall fun _ _ => le_rfl
    · obtain ⟨_, -, rfl⟩ := List.mem_map.1 hm
      obtain ⟨c', hc', hm'⟩ := List.mem_flatMap.1 hm'
      obtain ⟨_, -, rfl⟩ := List.mem_map.1 hm'
      exact hle _ (List.mem_map_of_mem hc')

/-- Of messages in the order of the clock, the unexpired ones are the last. -/
theorem filter_suffix {l : List (Time × M)} (h : l.Pairwise fun m m' => m.1 ≤ m'.1) :
    (l.filter fun m => x.Unexpired retention m) <:+ l := by
  induction l with
  | nil => exact List.suffix_rfl
  | cons m l ih =>
    obtain ⟨hle, h⟩ := List.pairwise_cons.1 h
    by_cases hm : x.Unexpired retention m
    · have hall : ∀ m' ∈ m :: l, x.Unexpired retention m' := by
        intro m' hm'
        rcases List.mem_cons.1 hm' with rfl | hm'
        · exact hm
        · exact hm.trans_le (by have := hle m' hm'; linarith)
      rw [List.filter_eq_self.2 fun m' hm' => decide_eq_true (hall m' hm')]
    · rw [List.filter_cons_of_neg (by simpa using hm)]
      exact (ih h).trans (List.suffix_cons ..)

/-- **What is asked for** and has not expired is at the end of every list between what has not
    expired and what was said. -/
theorem get_eq {k : List (Time × M)} (hlimit : limit ≠ 0) (h : x.Fresh retention limit)
    (hk : x.unexpired retention <:+ k) (hl : k <:+ saidBy x.calls) :
    InMemoryMemoryStore.get k limit = InMemoryMemoryStore.get (saidBy x.calls) limit := by
  refine InMemoryMemoryStore.get_of_suffix hlimit (List.IsSuffix.trans ?_ hk) hl
  rw [Fresh, if_neg hlimit] at h
  have hfilter : (InMemoryMemoryStore.get (saidBy x.calls) limit).filter
      (fun m => x.Unexpired retention m) = InMemoryMemoryStore.get (saidBy x.calls) limit := by
    rw [InMemoryMemoryStore.get, if_neg hlimit]
    exact List.filter_eq_self.2 fun m hm => decide_eq_true (h m hm)
  rw [← hfilter]
  exact InMemoryMemoryStore.get_suffix.filter _

theorem window_eq (hlimit : limit ≠ 0) : x.window retention limit =
    (InMemoryMemoryStore.get (x.unexpired retention) limit).map (·.2) := by
  rw [InMemoryMemoryStore.get, if_neg hlimit, window]

theorem fresh_of_inMemory (h : x.inMemory tenantId sessionId limit = x.window retention limit) :
    x.Fresh retention limit := by
  rw [inMemory_eq] at h
  rw [Fresh]
  split_ifs with hlimit
  · subst hlimit
    have hlen := congrArg List.length h
    rw [List.length_map, InMemoryMemoryStore.get, if_pos rfl, window, Nat.sub_zero,
      List.drop_length] at hlen
    exact List.length_eq_zero_iff.1 hlen
  · rw [window_eq hlimit] at h
    have hlen := congrArg List.length h
    rw [List.length_map, List.length_map] at hlen
    have hsuffix := List.suffix_of_suffix_length_le InMemoryMemoryStore.get_suffix
      (InMemoryMemoryStore.get_suffix.trans (filter_suffix (saidBy_pairwise x.ordered))) hlen.le
    have heq := hsuffix.eq_of_length hlen
    rw [InMemoryMemoryStore.get, if_neg hlimit] at heq
    intro m hm
    rw [heq] at hm
    exact of_decide_eq_true (List.mem_filter.1 (InMemoryMemoryStore.get_suffix.subset hm)).2

theorem redis_eq {s : RedisMemoryStore M}
    (hjson : ∀ m ∈ saidBy x.calls, s.json.validate (s.json.dump m.2) = .ok m.2)
    (h : x.Fresh s.retention limit) :
    x.redis s tenantId sessionId limit =
      .ok ((InMemoryMemoryStore.get (saidBy x.calls) limit).map (·.2)) := by
  obtain ⟨t, -, -, lost, kept, hsaid, hlost, hkept⟩ := x.redis_keeps s tenantId sessionId
  have hsuffix : kept <:+ saidBy x.calls := ⟨lost, hsaid.symm⟩
  have hget : InMemoryMemoryStore.get kept limit = InMemoryMemoryStore.get (saidBy x.calls) limit := by
    by_cases hlimit : limit = 0
    · subst hlimit
      have hnil : saidBy x.calls = [] := h
      rw [hnil, List.suffix_nil] at hsuffix
      rw [hsuffix, hnil]
    · refine get_eq hlimit h ?_ hsuffix
      have hnone : lost.filter (fun m => x.Unexpired s.retention m) = [] :=
        List.filter_eq_nil_iff.2 fun m hm => by simpa using hlost m hm
      rw [unexpired, hsaid, List.filter_append, hnone, List.nil_append]
      exact filter_suffix ((saidBy_pairwise x.ordered).sublist hsuffix.sublist)
  rw [redis, RedisMemoryStore.get, RedisLists.lrange_eq, hkept, InMemoryMemoryStore.get_map, hget]
  exact decode fun m hm => hjson m (InMemoryMemoryStore.get_suffix.subset hm)

end Appends

/-- **The three stores** return the most recent unexpired messages, exactly if what they are asked
    for has not expired. -/
theorem memory_window_iff (x : Appends M) (json : MessageJson M) (retention : Int)
    (tenantId sessionId : String) (limit : Nat)
    (hjson : ∀ m ∈ saidBy x.calls, json.validate (json.dump m.2) = .ok m.2) :
    (x.inMemory tenantId sessionId limit = x.window retention limit ∧
      x.redis ⟨retention, json⟩ tenantId sessionId limit = .ok (x.window retention limit) ∧
      x.postgres ⟨retention, json⟩ tenantId sessionId limit = .ok (x.window retention limit)) ↔
    x.Fresh retention limit := by
  refine ⟨fun h => Appends.fresh_of_inMemory h.1, fun h => ?_⟩
  have hwindow : (InMemoryMemoryStore.get (saidBy x.calls) limit).map (·.2) =
      x.window retention limit := by
    by_cases hlimit : limit = 0
    · subst hlimit
      have hnil : saidBy x.calls = [] := h
      rw [Appends.window, Appends.unexpired, hnil]
      rfl
    · rw [Appends.window_eq hlimit, Appends.get_eq hlimit h List.suffix_rfl
        (Appends.filter_suffix (Appends.saidBy_pairwise x.ordered))]
  refine ⟨Appends.inMemory_eq.trans hwindow, ?_, Appends.postgres_eq hjson⟩
  exact (Appends.redis_eq hjson h).trans (congrArg Except.ok hwindow)

/-- The JSON of messages of the user that are a text, without what they have in common. -/
def userText : MessageJson (Message String) where
  dump := Message.textContent
  validate s := .ok (.text .user s)

/-- Two messages within a minute. -/
def exchange : Appends (Message String) where
  calls := [⟨0, [.text .user "Hello"]⟩, ⟨30, [.text .user "And in June?"]⟩]
  now := 60
  ordered := by decide
  past := by decide

theorem exchange_json : ∀ m ∈ saidBy exchange.calls,
    userText.validate (userText.dump m.2) = .ok m.2 := by
  intro m hm
  rcases List.mem_cons.1 hm with rfl | hm
  · rfl
  · rw [List.mem_singleton.1 hm]
    rfl

theorem memory_window_last :
    exchange.inMemory "acme" "session" 1 = exchange.window 3600 1 ∧
      exchange.redis ⟨3600, userText⟩ "acme" "session" 1 = .ok (exchange.window 3600 1) ∧
      exchange.postgres ⟨3600, userText⟩ "acme" "session" 1 = .ok (exchange.window 3600 1) := by
  refine (memory_window_iff exchange userText 3600 "acme" "session" 1 exchange_json).2 ?_
  rw [Appends.Fresh, if_neg Nat.one_ne_zero]
  intro m hm
  rw [List.mem_singleton.1 hm]
  norm_num [exchange]

/-- Who asks for no message gets all of them from two of the stores. -/
theorem memory_window_none : ¬∀ (x : Appends (Message String)) (retention : Int) (limit : Nat),
    (∀ m ∈ saidBy x.calls, userText.validate (userText.dump m.2) = .ok m.2) →
      x.inMemory "acme" "session" limit = x.window retention limit ∧
        x.redis ⟨retention, userText⟩ "acme" "session" limit = .ok (x.window retention limit) ∧
        x.postgres ⟨retention, userText⟩ "acme" "session" limit =
          .ok (x.window retention limit) := by
  intro hall
  have h := (hall exchange 3600 0 exchange_json).1
  rw [Appends.window, Nat.sub_zero, List.drop_length, List.map_nil] at h
  exact List.cons_ne_nil _ _ h

end TracciaRuntime
