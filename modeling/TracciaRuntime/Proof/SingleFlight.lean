/-
  Single flight.

  * `Held`: the open flights of all tasks are the entries of the tables;
  * `Held.act`: so they are after every await of a client;
  * `single_flight`: the result.
-/
import TracciaRuntime.Proof.Flights

namespace TracciaRuntime

open Py Async Prog

variable {V : Type}

/-! ## The tables -/

/-- The task has this flight open. -/
def Opens (past : Nat → Awaits V) (t f : Nat) (k : String) : Prop :=
  ∃ g ∈ opened (past t), g.future = f ∧ g.key = k

/-- The futures and the tables are those of the open flights of all tasks. -/
structure Held (cfg : Config V) (S : CacheCall V → Prop)
    (past : Nat → Awaits V) (w : World V) : Prop where
  fresh : ∀ f, w.futures.length ≤ f → w.futures.get f = none
  owned : ∀ t f k, joinedAs k f ∈ past t → (w.futures.get f).isSome
  unique : ∀ t t' f k k', joinedAs k f ∈ past t → joinedAs k' f ∈ past t' → t = t' ∧ k = k'
  once : ∀ t f k k' h₁ h₂, past t = h₂ ++ joinedAs k f :: h₁ → joinedAs k' f ∉ h₁
  nodup : ∀ t, ((opened (past t)).map (·.future)).Nodup
  table : ∀ t f k, Opens past t f k → (w.procs (cfg.proc t)).inflight.get k = some f
  owner : ∀ p f k, (w.procs p).inflight.get k = some f → ∃ t, cfg.proc t = p ∧ Opens past t f k
  joined : ∀ t f k, ⟨.inflightJoin k, .ok (f, false)⟩ ∈ past t →
    ∃ t', cfg.proc t' = cfg.proc t ∧ joinedAs k f ∈ past t'
  waited : ∀ t f v, ⟨.futureWait f, .ok v⟩ ∈ past t → w.futures.get f = some (some (.ok v))
  produced : ∀ f v, w.futures.get f = some (some (.ok v)) →
    ∃ t k, Produced cfg.lib S k f v (past t)

section
variable {cfg : Config V} {S : CacheCall V → Prop}
  {past : Nat → Awaits V} {t u : Nat} {w w' : World V}
  {x y : (o : Op V) × Except Exn o.Resp}

/-- The task `t` has awaited one thing more. -/
abbrev awaitedBy (past : Nat → Awaits V) (t : Nat) (x : (o : Op V) × Except Exn o.Resp) :
    Nat → Awaits V :=
  Function.update past t (x :: past t)

theorem mem_awaitedBy : y ∈ awaitedBy past t x u ↔ y ∈ past u ∨ u = t ∧ y = x := by
  by_cases hu : u = t
  · subst hu
    rw [awaitedBy, Function.update_self, List.mem_cons]
    tauto
  · rw [awaitedBy, Function.update_of_ne hu]
    tauto

theorem opens_joined {f : Nat} {k : String} (h : Opens past t f k) : joinedAs k f ∈ past t := by
  obtain ⟨g, hg, rfl, rfl⟩ := h
  obtain ⟨h', hh⟩ := joined_of_opened hg
  rw [hh]
  exact List.mem_append_right _ List.mem_cons_self

/-- An await that opens and closes nothing. -/
theorem opens_level (hl : Level (past t) [x]) {f : Nat} {k : String} :
    Opens (awaitedBy past t x) u f k ↔ Opens past u f k := by
  by_cases hu : u = t
  · subst hu
    have hopen : opened (x :: past u) = (opened (past u)).map (Flight.extend [x]) := hl
    simp only [Opens, awaitedBy, Function.update_self, hopen, List.mem_map]
    constructor
    · rintro ⟨_, ⟨g, hg, rfl⟩, hf⟩
      exact ⟨g, hg, hf⟩
    · rintro ⟨g, hg, hf⟩
      exact ⟨_, ⟨g, hg, rfl⟩, hf⟩
  · simp only [Opens, awaitedBy, Function.update_of_ne hu]

theorem opens_join {f i : Nat} {k k' : String} :
    Opens (awaitedBy past t (joinedAs k i)) u f k' ↔
      Opens past u f k' ∨ u = t ∧ f = i ∧ k' = k := by
  by_cases hu : u = t
  · subst hu
    simp only [Opens, awaitedBy, Function.update_self, opened, List.mem_cons, List.mem_map]
    constructor
    · rintro ⟨_, rfl | ⟨g, hg, rfl⟩, rfl, rfl⟩
      · exact Or.inr ⟨trivial, rfl, rfl⟩
      · exact Or.inl ⟨g, hg, rfl, rfl⟩
    · rintro (⟨g, hg, rfl, rfl⟩ | ⟨-, rfl, rfl⟩)
      · exact ⟨_, Or.inr ⟨g, hg, rfl⟩, rfl, rfl⟩
      · exact ⟨_, Or.inl rfl, rfl, rfl⟩
  · simp only [Opens, awaitedBy, Function.update_of_ne hu, hu, false_and, or_false]

/-- The innermost flight is closed. -/
theorem opens_pop {g : Flight V} {outer : List (Flight V)} (ho : opened (past t) = g :: outer)
    (hn : ((opened (past t)).map (·.future)).Nodup) {r : Except Exn Unit} {f : Nat}
    {k k' : String} :
    Opens (awaitedBy past t ⟨.inflightPop k, r⟩) u f k' ↔
      Opens past u f k' ∧ ¬ (u = t ∧ f = g.future) := by
  by_cases hu : u = t
  · subst hu
    have hout : opened (⟨.inflightPop k, r⟩ :: past u) =
        outer.map (Flight.extend [⟨.inflightPop k, r⟩]) := by
      simp only [opened, ho, List.map_cons, List.tail_cons]
    rw [ho, List.map_cons, List.nodup_cons] at hn
    simp only [Opens, awaitedBy, Function.update_self, hout, ho, List.mem_map, List.mem_cons]
    constructor
    · rintro ⟨_, ⟨g', hg', rfl⟩, rfl, rfl⟩
      exact ⟨⟨g', Or.inr hg', rfl, rfl⟩, fun h => hn.1 (List.mem_map.2 ⟨g', hg', h.2⟩)⟩
    · rintro ⟨⟨g', rfl | hg', rfl, rfl⟩, hne⟩
      · exact absurd ⟨trivial, rfl⟩ hne
      · exact ⟨_, ⟨g', hg', rfl⟩, rfl, rfl⟩
  · simp only [Opens, awaitedBy, Function.update_of_ne hu, hu, false_and, not_false_eq_true,
      and_true]

theorem Held.init (hw : NoFlights w) : Held cfg S (fun _ => []) w where
  fresh f _ := by rw [hw.futures]; rfl
  owned _ _ _ h := nomatch h
  unique _ _ _ _ _ h := nomatch h
  once t f k k' h₁ h₂ h := by simp at h
  nodup _ := List.nodup_nil
  table _ _ _ h := by obtain ⟨g, hg, -⟩ := h; cases hg
  owner p f k h := by rw [hw.inflight] at h; cases h
  joined _ _ _ h := nomatch h
  waited _ _ _ h := nomatch h
  produced f v h := by rw [hw.futures] at h; cases h

theorem Held.congr {past' : Nat → Awaits V} (hH : Held cfg S past w)
    (hp : past' = past) (hw : w'.futures = w.futures ∧
      ∀ p, (w'.procs p).inflight = (w.procs p).inflight) : Held cfg S past' w' := by
  obtain ⟨hf, hi⟩ := hw
  subst hp
  exact ⟨hf ▸ hH.fresh, hf ▸ hH.owned, hH.unique, hH.once, hH.nodup,
    fun t f k h => (hi _).symm ▸ hH.table t f k h, fun p f k h => hH.owner p f k (hi p ▸ h),
    hH.joined, hf ▸ hH.waited, hf ▸ hH.produced⟩

/-- The last await of a task that opened nothing. -/
theorem once_awaitedBy {k k' : String} {f : Nat} {h₁ h₂ : Awaits V} (hx : x ≠ joinedAs k f)
    (ho : ∀ h₂, past u = h₂ ++ joinedAs k f :: h₁ → joinedAs k' f ∉ h₁)
    (hh : awaitedBy past t x u = h₂ ++ joinedAs k f :: h₁) : joinedAs k' f ∉ h₁ := by
  by_cases hu : u = t
  · subst hu
    rw [awaitedBy, Function.update_self] at hh
    cases h₂ with
    | nil => cases hh; exact absurd rfl hx
    | cons y h₂ => exact ho h₂ (List.cons.inj hh).2
  · rw [awaitedBy, Function.update_of_ne hu] at hh
    exact ho h₂ hh

theorem Produced.awaitedBy {k : String} {f : Nat} {v : V}
    (h : Produced cfg.lib S k f v (past u)) :
    Produced cfg.lib S k f v (awaitedBy past t x u) := by
  by_cases hu : u = t
  · subst hu
    obtain ⟨c, hc, hk, h₁, h₂, h₃, hh, ha⟩ := h
    refine ⟨c, hc, hk, h₁, h₂, x :: h₃, ?_, ha⟩
    rw [TracciaRuntime.awaitedBy, Function.update_self, hh]
    rfl
  · rw [TracciaRuntime.awaitedBy, Function.update_of_ne hu]
    exact h

/-- An await that opens and closes no flight and leaves the tables alone. -/
theorem Held.level (hH : Held cfg S past w) (hl : Level (past t) [x])
    (hx : ∀ k f, x ≠ joinedAs k f)
    (hj : ∀ k f, x = ⟨.inflightJoin k, .ok (f, false)⟩ →
      ∃ t', cfg.proc t' = cfg.proc t ∧ joinedAs k f ∈ past t')
    (hw : ∀ f v, x = ⟨.futureWait f, .ok v⟩ → w'.futures.get f = some (some (.ok v)))
    (hp : ∀ p, (w'.procs p).inflight = (w.procs p).inflight)
    (hfresh : ∀ f, w'.futures.length ≤ f → w'.futures.get f = none)
    (hsome : ∀ f, (w.futures.get f).isSome → (w'.futures.get f).isSome)
    (hset : ∀ f v, w.futures.get f = some (some v) → w'.futures.get f = some (some v))
    (hproduced : ∀ f v, w'.futures.get f = some (some (.ok v)) →
      ∃ t k, Produced cfg.lib S k f v (past t)) :
    Held cfg S (awaitedBy past t x) w' := by
  have hold : ∀ {u k f}, joinedAs k f ∈ awaitedBy past t x u → joinedAs k f ∈ past u :=
    fun h => (mem_awaitedBy.1 h).resolve_right fun h => hx _ _ h.2.symm
  refine ⟨hfresh, fun u f k h => hsome f (hH.owned u f k (hold h)),
    fun u u' f k k' h h' => hH.unique u u' f k k' (hold h) (hold h'),
    fun u f k k' h₁ h₂ hh => once_awaitedBy (hx k f) (fun h₂ => hH.once u f k k' h₁ h₂) hh,
    fun u => ?_,
    fun u f k h => ?_, fun p f k h => ?_, fun u f k h => ?_, fun u f v h => ?_, fun f v h => ?_⟩
  · by_cases hu : u = t
    · subst hu
      have hopen : opened (x :: past u) = (opened (past u)).map (Flight.extend [x]) := hl
      rw [awaitedBy, Function.update_self, hopen, List.map_map]
      exact hH.nodup u
    · rw [awaitedBy, Function.update_of_ne hu]
      exact hH.nodup u
  · rw [hp]
    exact hH.table u f k ((opens_level hl).1 h)
  · rw [hp] at h
    obtain ⟨u, hu, ho⟩ := hH.owner p f k h
    exact ⟨u, hu, (opens_level hl).2 ho⟩
  · rcases mem_awaitedBy.1 h with hm | ⟨rfl, hm⟩
    · obtain ⟨u', hu', hm⟩ := hH.joined u f k hm
      exact ⟨u', hu', mem_awaitedBy.2 (Or.inl hm)⟩
    · obtain ⟨u', hu', hm⟩ := hj k f hm.symm
      exact ⟨u', hu', mem_awaitedBy.2 (Or.inl hm)⟩
  · rcases mem_awaitedBy.1 h with h | ⟨-, h⟩
    · exact hset f _ (hH.waited u f v h)
    · exact hw f v h.symm
  · obtain ⟨u, k, hpr⟩ := hproduced f v h
    exact ⟨u, k, hpr.awaitedBy⟩

/-- An await that also leaves the futures alone. -/
theorem Held.quiet (hH : Held cfg S past w) (hl : Level (past t) [x])
    (hx : ∀ k f, x ≠ joinedAs k f)
    (hj : ∀ k f, x = ⟨.inflightJoin k, .ok (f, false)⟩ →
      ∃ t', cfg.proc t' = cfg.proc t ∧ joinedAs k f ∈ past t')
    (hw : ∀ f v, x = ⟨.futureWait f, .ok v⟩ → w.futures.get f = some (some (.ok v)))
    (hp : ∀ p, (w'.procs p).inflight = (w.procs p).inflight) (hf : w'.futures = w.futures) :
    Held cfg S (awaitedBy past t x) w' := by
  refine hH.level hl hx hj ?_ hp ?_ ?_ ?_ ?_ <;> rw [hf]
  · exact hw
  · exact hH.fresh
  · exact fun _ => id
  · exact fun _ _ => id
  · exact hH.produced

/-- The owner hands over. -/
theorem Held.futureSet {X₀ : Exn → Prop} (hH : Held cfg S past w) {g : Flight V}
    {outer : List (Flight V)} {v : Except Exn V} {r : Except Exn Unit}
    (ho : opened (past t) = g :: outer) (hv : HandsOver cfg S X₀ g v)
    (hpend : w.futures.get g.future = some none)
    (hf : w'.futures = w.futures.set g.future (some v))
    (hp : ∀ p, (w'.procs p).inflight = (w.procs p).inflight) :
    Held cfg S (awaitedBy past t ⟨.futureSet g.future v, r⟩) w' := by
  refine hH.level (level_quiet (o := .futureSet g.future v) rfl r) (fun _ _ h => nomatch h)
    (fun _ _ h => nomatch h) (fun _ _ h => nomatch h) hp (fun f hlen => ?_) (fun f hs => ?_) (fun f y hy => ?_)
    (fun f y hy => ?_) <;> rw [hf] at *
  · have hle := (Dict.length_le_length_set w.futures g.future (some v)).trans hlen
    have hne : f ≠ g.future := by
      rintro rfl
      rw [hH.fresh _ hle] at hpend
      cases hpend
    rw [Dict.get_set_ne hne]
    exact hH.fresh f hle
  · rw [Dict.get_set]
    split
    · rfl
    · exact hs
  · have hne : f ≠ g.future := by rintro rfl; rw [hy] at hpend; cases hpend
    rw [Dict.get_set_ne hne]
    exact hy
  · rw [Dict.get_set] at hy
    split at hy
    · rename_i hfg
      subst hfg
      simp only [Option.some.injEq] at hy
      subst hy
      obtain ⟨c, hc, hk, l, s, ⟨h₃, hl⟩, ha⟩ := hv
      have hg : g ∈ opened (past t) := by rw [ho]; exact List.mem_cons_self
      obtain ⟨h₁, hh⟩ := joined_of_opened hg
      exact ⟨t, g.key, c, hc, hk, h₁, l, h₃, by rw [hl]; exact hh, s, ha⟩
    · exact hH.produced f y hy

/-- A new owner. -/
theorem Held.join (hH : Held cfg S past w) {k : String}
    (hn : (w.procs (cfg.proc t)).inflight.get k = none)
    (hf : w'.futures = w.futures.set w.futures.length none)
    (hp : ∀ p, (w'.procs p).inflight = if p = cfg.proc t then
      (w.procs p).inflight.set k w.futures.length else (w.procs p).inflight) :
    Held cfg S (awaitedBy past t (joinedAs k w.futures.length)) w' := by
  have hnone := hH.fresh _ (le_refl w.futures.length)
  have hlen : w'.futures.length = w.futures.length + 1 := by
    rw [hf, Dict.set_of_get_none hnone, List.length_append]
    rfl
  have hget : ∀ f, f ≠ w.futures.length → w'.futures.get f = w.futures.get f :=
    fun f hne => by rw [hf, Dict.get_set_ne hne]
  have hold : ∀ {u k' f}, joinedAs k' f ∈ past u → f ≠ w.futures.length := by
    rintro u k' f hm rfl
    have := hH.owned u _ k' hm
    simp [hnone] at this
  have hjoin : ∀ {u k' f}, joinedAs k' f ∈ awaitedBy past t (joinedAs k w.futures.length) u →
      joinedAs k' f ∈ past u ∨ u = t ∧ k' = k ∧ f = w.futures.length := by
    intro u k' f hm
    refine (mem_awaitedBy.1 hm).imp_right fun h => ⟨h.1, ?_⟩
    have h₂ := h.2
    simp only [joinedAs, Sigma.mk.injEq, Op.inflightJoin.injEq] at h₂
    obtain ⟨rfl, h₂⟩ := h₂
    cases h₂
    exact ⟨rfl, rfl⟩
  have hset : ∀ f v, w'.futures.get f = some (some v) → w.futures.get f = some (some v) := by
    intro f v h
    by_cases hne : f = w.futures.length
    · subst hne; rw [hf, Dict.get_set_self] at h; cases h
    · rwa [hget f hne] at h
  refine ⟨fun f hle => ?_, fun u f k' h => ?_, fun u u' f k₁ k₂ h₁ h₂ => ?_,
    fun u f k₁ k₂ h₁ h₂ hh => ?_, fun u => ?_, fun u f k' h => ?_, fun p f k' h => ?_,
    fun u f k' h => ?_, fun u f v h => ?_, fun f v h => ?_⟩
  · rw [hget f (by omega)]
    exact hH.fresh f (by omega)
  · rcases hjoin h with h | ⟨-, -, rfl⟩
    · rw [hget f (hold h)]
      exact hH.owned u f k' h
    · rw [hf, Dict.get_set_self]; rfl
  · rcases hjoin h₁ with h₁ | ⟨rfl, rfl, rfl⟩
    · rcases hjoin h₂ with h₂ | ⟨-, -, hlast⟩
      · exact hH.unique u u' f k₁ k₂ h₁ h₂
      · exact absurd hlast (hold h₁)
    · rcases hjoin h₂ with h₂ | ⟨rfl, rfl, -⟩
      · exact absurd rfl (hold h₂)
      · exact ⟨rfl, rfl⟩
  · have hmem : ∀ {h h₁ h₂ : Awaits V}, h = h₂ ++ joinedAs k₁ f :: h₁ → joinedAs k₁ f ∈ h :=
      fun hh => hh ▸ List.mem_append_right _ List.mem_cons_self
    by_cases hne : joinedAs k w.futures.length = joinedAs (V := V) k₁ f
    · cases hne
      by_cases hu : u = t
      · subst hu
        rw [awaitedBy, Function.update_self] at hh
        cases h₂ with
        | nil => cases hh; exact fun hm => hold hm rfl
        | cons y h₂ => exact absurd rfl (hold (hmem (List.cons.inj hh).2))
      · rw [awaitedBy, Function.update_of_ne hu] at hh
        exact absurd rfl (hold (hmem hh))
    · exact once_awaitedBy hne (fun h₂ => hH.once u f k₁ k₂ h₁ h₂) hh
  · by_cases hu : u = t
    · subst hu
      rw [awaitedBy, Function.update_self]
      simp only [opened, List.map_cons, List.map_map, List.nodup_cons]
      refine ⟨fun hm => ?_, hH.nodup u⟩
      obtain ⟨g, hg, hgf⟩ := List.mem_map.1 hm
      exact hold (opens_joined ⟨g, hg, hgf, rfl⟩) rfl
    · rw [awaitedBy, Function.update_of_ne hu]
      exact hH.nodup u
  · rw [hp]
    rcases opens_join.1 h with h | ⟨rfl, rfl, rfl⟩
    · have ht := hH.table u f k' h
      split
      · rename_i hpu
        have hne : k' ≠ k := by rintro rfl; rw [hpu, hn] at ht; cases ht
        rw [Dict.get_set_ne hne]
        exact ht
      · exact ht
    · rw [if_pos rfl, Dict.get_set_self]
  · rw [hp] at h
    split at h
    · rename_i hpu
      subst hpu
      rw [Dict.get_set] at h
      split at h
      · cases h
        subst_vars
        exact ⟨t, rfl, opens_join.2 (Or.inr ⟨rfl, rfl, rfl⟩)⟩
      · obtain ⟨u, hu, ho⟩ := hH.owner _ f k' h
        exact ⟨u, hu, opens_join.2 (Or.inl ho)⟩
    · obtain ⟨u, hu, ho⟩ := hH.owner _ f k' h
      exact ⟨u, hu, opens_join.2 (Or.inl ho)⟩
  · have hm : ⟨.inflightJoin k', .ok (f, false)⟩ ∈ past u := by
      refine (mem_awaitedBy.1 h).resolve_right fun h => ?_
      have h₂ := h.2
      simp only [joinedAs, Sigma.mk.injEq, Op.inflightJoin.injEq] at h₂
      obtain ⟨rfl, h₂⟩ := h₂
      cases h₂
    obtain ⟨u', hu', hm⟩ := hH.joined u f k' hm
    exact ⟨u', hu', mem_awaitedBy.2 (Or.inl hm)⟩
  · have hm : ⟨.futureWait f, .ok v⟩ ∈ past u :=
      (mem_awaitedBy.1 h).resolve_right fun h => by
        cases h.2
    have hw := hH.waited u f v hm
    rwa [hget f]
    rintro rfl
    rw [hnone] at hw
    cases hw
  · obtain ⟨u, k', hpr⟩ := hH.produced f v (hset f _ h)
    exact ⟨u, k', hpr.awaitedBy⟩

/-- The owner closes its flight. -/
theorem Held.pop (hH : Held cfg S past w) {g : Flight V} {outer : List (Flight V)}
    {r : Except Exn Unit} (ho : opened (past t) = g :: outer) (hf : w'.futures = w.futures)
    (hp : ∀ p, (w'.procs p).inflight = if p = cfg.proc t then (w.procs p).inflight.erase g.key
      else (w.procs p).inflight) :
    Held cfg S (awaitedBy past t ⟨.inflightPop g.key, r⟩) w' := by
  have hold : ∀ {u y}, y ∈ awaitedBy past t ⟨.inflightPop g.key, r⟩ u →
      (∀ k r', y ≠ (⟨.inflightPop k, r'⟩ : (o : Op V) × Except Exn o.Resp)) → y ∈ past u :=
    fun h hne => (mem_awaitedBy.1 h).resolve_right fun h => hne _ _ h.2
  have hopens : ∀ {u f k}, Opens (awaitedBy past t ⟨.inflightPop g.key, r⟩) u f k ↔
      Opens past u f k ∧ ¬ (u = t ∧ f = g.future) := opens_pop ho (hH.nodup t)
  have hown : Opens past t g.future g.key := ⟨g, by rw [ho]; exact List.mem_cons_self, rfl, rfl⟩
  refine ⟨hf ▸ hH.fresh, fun u f k h => ?_, fun u u' f k k' h h' => ?_,
    fun u f k k' h₁ h₂ hh =>
      once_awaitedBy (fun h => by cases h) (fun h₂ => hH.once u f k k' h₁ h₂) hh,
    fun u => ?_, fun u f k h => ?_, fun p f k h => ?_, fun u f k h => ?_, fun u f v h => ?_,
    fun f v h => ?_⟩
  · rw [hf]
    exact hH.owned u f k (hold h fun _ _ h => by cases h)
  · exact hH.unique u u' f k k' (hold h fun _ _ h => by cases h) (hold h' fun _ _ h => by cases h)
  · by_cases hu : u = t
    · subst hu
      have hn := hH.nodup u
      rw [ho, List.map_cons, List.nodup_cons] at hn
      rw [awaitedBy, Function.update_self]
      simp only [opened, ho, List.map_cons, List.tail_cons, List.map_map]
      exact hn.2
    · rw [awaitedBy, Function.update_of_ne hu]
      exact hH.nodup u
  · obtain ⟨h, hne⟩ := hopens.1 h
    have ht := hH.table u f k h
    rw [hp]
    split
    · rename_i hpu
      rw [Dict.get_erase, if_neg]
      · exact ht
      · rintro rfl
        -- the same key of the same process would be the same flight
        have hg := hH.table t _ _ hown
        rw [← hpu, ht] at hg
        cases hg
        exact hne ⟨(hH.unique u t _ _ _ (opens_joined h) (opens_joined hown)).1, rfl⟩
    · exact ht
  · rw [hp] at h
    have hkeep : (w.procs p).inflight.get k = some f ∧ ¬ (p = cfg.proc t ∧ k = g.key) := by
      split at h
      · rw [Dict.get_erase] at h
        split at h
        · cases h
        · exact ⟨h, fun hk => by simp_all⟩
      · exact ⟨h, fun hk => by simp_all⟩
    obtain ⟨u, rfl, hu⟩ := hH.owner p f k hkeep.1
    refine ⟨u, rfl, hopens.2 ⟨hu, ?_⟩⟩
    rintro ⟨rfl, rfl⟩
    exact hkeep.2 ⟨rfl, (hH.unique u u _ _ _ (opens_joined hu) (opens_joined hown)).2⟩
  · obtain ⟨u', hu', hm⟩ := hH.joined u f k (hold h fun _ _ h => by cases h)
    exact ⟨u', hu', mem_awaitedBy.2 (Or.inl hm)⟩
  · rw [hf]
    exact hH.waited u f v (hold h fun _ _ h => by cases h)
  · rw [hf] at h
    obtain ⟨u, k, hpr⟩ := hH.produced f v h
    exact ⟨u, k, hpr.awaitedBy⟩

end

/-! ## The steps -/

section
variable {cfg : Config V} {S : CacheCall V → Prop} {X₀ : Exn → Prop}
  {M : Awaits V → Op V → Prop} {past : Nat → Awaits V} {t : Nat} {b : Bool} {w w' : World V}

theorem World.updateProc_inflight (p q : Nat) {f : Proc → Proc}
    (hf : ∀ x, (f x).inflight = x.inflight) :
    ((w.updateProc p f).procs q).inflight = (w.procs q).inflight := by
  unfold World.updateProc
  by_cases h : q = p
  · subst h; simp [hf]
  · simp [Function.update_of_ne h]

/-- The futures and the tables are the same. -/
def SameFlights (w w' : World V) : Prop :=
  w'.futures = w.futures ∧ ∀ p, (w'.procs p).inflight = (w.procs p).inflight

theorem effect_sameFlights {o : Op V} {c : o.Choice} {r : Except Exn o.Resp}
    (ho : o.isFlight = false) (h : w.effect cfg t o c = some (r, w')) : SameFlights w w' := by
  cases o with
  | policyEvaluate point payload context => cases h; split <;> exact ⟨rfl, fun _ => rfl⟩
  | _ =>
    first
      | cases ho; done
      | simp only [World.effect, World.touch] at h
        (repeat' split at h) <;> cases h <;>
          first
            | exact ⟨rfl, fun _ => rfl⟩
            | exact ⟨rfl, fun q => World.updateProc_inflight _ q fun _ => rfl⟩

/-- Other operations leave the service alone. -/
theorem act_sameFlights {o : Op V} {a : Act cfg.sem.Ans Exn o} {r : Except Exn o.Resp}
    (ho : o.isFlight = false) (h : cfg.sem.act t b w o a = some (r, w')) : SameFlights w w' := by
  obtain ⟨C, ⟨c, hc⟩ | ⟨e, -, -, rfl | rfl | ⟨c, r', hc⟩⟩⟩ := Config.act_cases h
  · exact effect_sameFlights (w := w.flagged C) ho hc
  · exact ⟨rfl, fun _ => rfl⟩
  · cases o <;> exact ⟨rfl, fun _ => rfl⟩
  · exact effect_sameFlights (w := w.flagged C) ho hc

theorem act_futureWait {f : Nat} {a : Act cfg.sem.Ans Exn (.futureWait f)} {r : Except Exn V}
    (h : cfg.sem.act t b w (.futureWait f) a = some (r, w')) :
    SameFlights w w' ∧ ∀ v, r = .ok v → w.futures.get f = some (some (.ok v)) := by
  have eff : ∀ {C : Finset Nat} {c : Unit} {r' : Except Exn V},
      (w.flagged C).effect cfg t (.futureWait f) c = some (r', w') →
      SameFlights w w' ∧ w.futures.get f = some (some r') := by
    intro C c r' hc
    simp only [World.effect] at hc
    split at hc
    · rename_i hx
      cases hc
      exact ⟨⟨rfl, fun _ => rfl⟩, hx⟩
    · cases hc
  obtain ⟨C, ⟨c, hc⟩ | ⟨e, rfl, -, rfl | rfl | ⟨c, r', hc⟩⟩⟩ := Config.act_cases h
  · exact ⟨(eff hc).1, fun v hv => by rw [(eff hc).2, hv]⟩
  · exact ⟨⟨rfl, fun _ => rfl⟩, fun v hv => by cases hv⟩
  · exact ⟨⟨rfl, fun _ => rfl⟩, fun v hv => by cases hv⟩
  · exact ⟨(eff hc).1, fun v hv => by cases hv⟩

/-- **What one await does to the tables.** -/
theorem Held.act (hH : Held cfg S past w) {o : Op V} {a : Act cfg.sem.Ans Exn o}
    {r : Except Exn o.Resp} (hm : mayFollow cfg S X₀ M (past t) o)
    (h : cfg.sem.act t b w o a = some (r, w')) :
    Held cfg S (awaitedBy past t ⟨o, r⟩) w' := by
  by_cases hfl : o.isFlight = false
  · obtain ⟨hf, hp⟩ := act_sameFlights hfl h
    refine hH.quiet (level_quiet (Op.isTable_of_isFlight hfl) r) (fun k f hx => ?_)
      (fun k f hx => ?_) (fun f v hx => ?_) hp hf <;> cases hx <;> cases hfl
  cases o with
  | inflightJoin k =>
    obtain ⟨C, ⟨c, hc⟩ | ⟨e, rfl, hl, -⟩⟩ := Config.act_cases h
    · simp only [World.effect] at hc
      split at hc
      · rename_i f hget
        cases hc
        refine hH.quiet rfl (fun _ _ h => by cases h) (fun k' f' hx => ?_) (fun _ _ h => by cases h)
          (fun _ => rfl) rfl
        cases hx
        obtain ⟨u, hu, ho⟩ := hH.owner _ _ _ hget
        exact ⟨u, hu, opens_joined ho⟩
      · rename_i hget
        cases hc
        refine hH.join hget rfl fun p => ?_
        simp only [World.updateProc, World.flagged]
        split
        · rename_i hp
          subst hp
          rw [Function.update_self]
        · rename_i hp
          rw [Function.update_of_ne hp]
    · cases hl
  | futureWait f =>
    obtain ⟨⟨hf, hp⟩, hv⟩ := act_futureWait h
    refine hH.quiet (level_quiet rfl r) (fun _ _ h => by cases h) (fun _ _ h => by cases h)
      (fun f' v hx => ?_) hp hf
    cases hx
    exact hv v rfl
  | futureSet f x =>
    obtain ⟨g, outer, ho, rfl, hx⟩ := hm
    obtain ⟨C, ⟨c, hc⟩ | ⟨e, rfl, hl, -⟩⟩ := Config.act_cases h
    · simp only [World.effect] at hc
      split at hc
      · rename_i hpend
        cases hc
        exact hH.futureSet ho hx hpend rfl fun _ => rfl
      · cases hc
        exact hH.quiet (level_quiet (o := .futureSet g.future x) rfl _) (fun _ _ h => by cases h)
          (fun _ _ h => by cases h) (fun _ _ h => by cases h) (fun _ => rfl) rfl
    · cases hl
  | inflightPop k =>
    obtain ⟨g, outer, ho, rfl⟩ := hm
    obtain ⟨C, ⟨c, hc⟩ | ⟨e, rfl, hl, -⟩⟩ := Config.act_cases h
    · cases hc
      refine hH.pop ho rfl fun p => ?_
      simp only [World.updateProc, World.flagged]
      split
      · rename_i hp
        subst hp
        rw [Function.update_self]
      · rename_i hp
        rw [Function.update_of_ne hp]
    · cases hl
  | _ => exact absurd rfl hfl

/-- The await as an event of a run. -/
theorem Held.awaited {ρ : Type} {l : List (Event (Op.Resp (V := V)) cfg.sem.Ans Exn ρ)}
    (hH : Held cfg S (fun t => pastOf t l) w) {o : Op V} {a : Act cfg.sem.Ans Exn o}
    {r : Except Exn o.Resp} (hm : mayFollow cfg S X₀ M (pastOf t l) o)
    (h : cfg.sem.act t b w o a = some (r, w')) :
    Held cfg S (fun u => pastOf u (.awaited t o a r :: l)) w' := by
  refine (hH.act hm h).congr (funext fun u => ?_) ⟨rfl, fun _ => rfl⟩
  by_cases hu : u = t
  · subst hu; rw [pastOf_awaited_self, awaitedBy, Function.update_self]
  · rw [pastOf_awaited_ne hu, awaitedBy, Function.update_of_ne hu]

end

/-! ## Single flight -/

section
variable {cfg : Config V} {S : CacheCall V → Prop}
  {past : Nat → Awaits V} {t : Nat} {w : World V}

/-- Every exception. -/
abbrev anyExn : Exn → Prop := fun _ => True

/-- No further rules. -/
abbrev anyOp : Awaits V → Op V → Prop := fun _ _ => True

theorem Client.polite {α : Type} {p : Task V α} (hp : Client cfg.lib S p) :
    Polite cfg S anyExn anyOp anyExn p :=
  ClientOf.polite (fun _ ho => ⟨ho, fun _ => trivial⟩) (fun _ _ _ => trivial) (fun _ _ => trivial)
    hp fun _ => id

theorem call_polite {c : CacheCall V} (hc : S c) (hl : Client cfg.lib S c.loader) (h : Awaits V) :
    (c.task cfg.lib).Obeys (mayFollow cfg S anyExn anyOp)
      (fun x h' => EndsLevel anyExn h x h' ∧ ∀ y, x = .ok y → c.enabled = true →
        ∃ k l, c.key cfg.lib = .ok k ∧ h' = l ++ h ∧ Sourced cfg c k l y) h :=
  call_obeys (fun _ _ _ => trivial) (fun _ _ => trivial) (fun _ => id) hc fun h' _ => hl.polite h'

/-- A loader in flight belongs to an open flight. -/
theorem InFlight.opens (hS : ∀ c, S c → Client cfg.lib S c.loader)
    {k : String} {f : Nat} (h : InFlight cfg.lib S k f (past t)) : Opens past t f k := by
  obtain ⟨c, hc, -, h₁, h₂, hh, q, hq, -⟩ := h
  -- the flight would be open where the loader ends, so it is open now
  obtain ⟨l, x, l', hl', hlev, -⟩ :=
    (((hS c hc).polite (joinedAs k f :: h₁)).after hq).exists_end .cancelled
  rw [← List.append_assoc] at hl'
  obtain rfl := List.append_cancel_right hl'
  obtain ⟨outer, hout⟩ := hlev.owner
  rw [List.append_assoc] at hout
  obtain ⟨g, hg, he⟩ := mem_opened_append (f := ⟨f, k, l ++ h₂⟩) (h := h₂ ++ joinedAs k f :: h₁)
    (by rw [hout]; exact List.mem_cons_self) (by simp)
  refine ⟨g, hh ▸ hg, ?_, ?_⟩
  · exact (congrArg Flight.future he).symm
  · exact (congrArg Flight.key he).symm

/-- Where a task became the owner of a future. -/
theorem Held.position (hH : Held cfg S past w) {k k' : String} {f : Nat}
    {h₁ h₂ h₁' h₂' : Awaits V} (h : past t = h₂ ++ joinedAs k f :: h₁)
    (h' : past t = h₂' ++ joinedAs k' f :: h₁') : h₂.length = h₂'.length := by
  have hne := hH.once t f k k' h₁ h₂ h
  have hne' := hH.once t f k' k h₁' h₂' h'
  rw [h] at h'
  rcases List.append_eq_append_iff.1 h' with ⟨m, rfl, hm⟩ | ⟨m, rfl, hm⟩
  · cases m with
    | nil => simp
    | cons y m =>
      rw [(List.cons.inj hm).2] at hne
      exact absurd (List.mem_append_right _ List.mem_cons_self) hne
  · cases m with
    | nil => simp
    | cons y m =>
      rw [(List.cons.inj hm).2] at hne'
      exact absurd (List.mem_append_right _ List.mem_cons_self) hne'

/-- A call that has ended has closed the flights that were opened in it. -/
theorem Held.closed (hH : Held cfg S past w)
    (hS : ∀ c, S c → Client cfg.lib S c.loader) {c : CacheCall V}
    (hc : S c) {l : Awaits V} {x : Except Exn ((V × Bool) × c.σ)}
    (he : c.Ended cfg.lib l x (past t)) {k : String} {f : Nat}
    (hj : joinedAs k f ∈ l) (k' : String) : ¬ Opens past t f k' := by
  rintro ⟨g, hg, rfl, rfl⟩
  obtain ⟨⟨h₁, h₃, hh⟩, ha⟩ := he
  have hobeys := call_polite hc (hS c hc) h₁
  obtain ⟨⟨l', hl', hlev, -⟩, -⟩ := (hobeys.after ha).ofResult
  obtain rfl := List.append_cancel_right hl'
  obtain ⟨l₁, l₂, rfl⟩ := List.append_of_mem hj
  obtain ⟨h', hpos⟩ := joined_of_opened hg
  have hpos' : past t = (h₃ ++ l₁) ++ joinedAs k g.future :: (l₂ ++ h₁) := by simp [hh]
  have hlen := hH.position hpos hpos'
  rw [hh, List.append_assoc] at hg
  obtain ⟨g', hg', hge⟩ := mem_opened_append hg (by rw [hlen]; simp)
  have hopen : opened ((l₁ ++ joinedAs k g.future :: l₂) ++ h₁) = _ := hlev
  rw [hopen] at hg'
  obtain ⟨g'', -, rfl⟩ := List.mem_map.1 hg'
  rw [hge] at hlen
  simp at hlen

/-- Where the value of a call that has returned comes from. -/
theorem Held.value (hH : Held cfg S past w)
    (hS : ∀ c, S c → c.enabled = true ∧ Client cfg.lib S c.loader)
    {c : CacheCall V} (hc : S c) {l : Awaits V} {y : (V × Bool) × c.σ}
    (he : c.Ended cfg.lib l (.ok y) (past t)) :
    ∃ k, c.key cfg.lib = .ok k ∧
      ((∃ e, ⟨.cacheGet k, .ok (some e)⟩ ∈ l ∧ cfg.lib.loads e = some y.1.1) ∨
        ∃ t' f, cfg.proc t' = cfg.proc t ∧
          Produced cfg.lib S k f y.1.1 (past t')) := by
  obtain ⟨⟨h₁, h₃, hh⟩, ha⟩ := he
  have hobeys := call_polite hc (hS c hc).2 h₁
  obtain ⟨-, hval⟩ := (hobeys.after ha).ofResult
  obtain ⟨k, l', hk, hl', hsrc⟩ := hval y rfl (hS c hc).1
  obtain rfl := List.append_cancel_right hl'
  have hmem : ∀ {z}, z ∈ l → z ∈ past t := by
    intro z hz
    rw [hh]
    exact List.mem_append_left _ (List.mem_append_right _ hz)
  refine ⟨k, hk, ?_⟩
  rcases hsrc with hstore | ⟨f, hjoin, hwait⟩ | ⟨f, l₁, l₂, rfl, l₃, l₄, s, rfl, hload⟩
  · exact Or.inl hstore
  · -- the owner of the future is the task that opened it
    obtain ⟨t', ht', hown⟩ := hH.joined t f k (hmem hjoin)
    obtain ⟨u, k', hpr⟩ := hH.produced f _ (hH.waited t f _ (hmem hwait))
    have hown' : joinedAs k' f ∈ past u := by
      obtain ⟨c', -, -, g₁, g₂, g₃, hg, -⟩ := hpr
      rw [hg]
      exact List.mem_append_right _ List.mem_cons_self
    obtain ⟨rfl, rfl⟩ := hH.unique t' u f k k' hown hown'
    exact Or.inr ⟨t', f, ht', hpr⟩
  · refine Or.inr ⟨t, f, rfl, c, hc, hk, l₁ ++ h₁, l₄, h₃ ++ l₃, ?_, s, hload⟩
    rw [hh]
    simp

theorem cacheSys_once {calls : Nat → CacheCall V} :
    Sys.Once (cacheSys cfg calls) fun w => {t | t ∈ w.started} where
  enter := by
    rintro w t p w' ⟨hn, -, rfl⟩
    exact ⟨hn, fun u hu => by simpa [Set.mem_insert_iff] using hu⟩
  run := by
    intro t b w o a r w' hact u hu
    exact (Config.act_frame hact).started ▸ hu
  fin := fun hu => hu
  kill := False.elim

/-- The tables and the open flights belong together in every run. -/
theorem held_trace {calls : Nat → CacheCall V}
    (hS : ∀ c, S c → Client cfg.lib S c.loader)
    (hcalls : ∀ t, S (calls t)) {w₀ : World V} (hw₀ : NoFlights w₀)
    {l : List (Event (Op.Resp (V := V)) cfg.sem.Ans Exn (V × Bool))}
    {P : Pool (Op.Resp (V := V)) Exn (World V) (V × Bool)}
    (h : (cacheSys cfg calls).Trace ⟨w₀, fun _ => none⟩ l P) :
    Sys.Tracked (Y := cacheSys cfg calls) (fun w => {t | t ∈ w.started}) l P ∧
      Held cfg S (fun t => pastOf t l) P.world ∧
      ∀ t p, .entered t p ∈ l → p = (calls t).run cfg.lib := by
  have hobeys : ∀ t, ((calls t).run cfg.lib).Obeys (mayFollow cfg S anyExn anyOp)
      (fun _ _ => True) [] := by
    intro t
    refine Obeys.bind ((call_polite (hcalls t) (hS _ (hcalls t)) []).mono fun x h' _ => ?_)
    cases x
    · trivial
    · exact trivial
  refine Sys.Trace.invariant (I := fun l w => Held cfg S (fun t => pastOf t l) w ∧
      ∀ t p, .entered t p ∈ l → p = (calls t).run cfg.lib)
    cacheSys_once (fun _ => rfl) (fun _ => True) (fun _ _ => trivial)
    ⟨Held.init hw₀, fun _ _ h => nomatch h⟩ ?_ ?_ ?_ ?_ h
  · rintro l w t p w' ⟨hH, hen⟩ hpast ⟨-, hp, rfl⟩
    refine ⟨hH.congr (funext (pastOf_entered hpast)) ⟨rfl, fun _ => rfl⟩, fun u q hq => ?_⟩
    rcases List.mem_cons.1 hq with hq | hq
    · cases hq; exact hp
    · exact hen u q hq
  · rintro l w t b o k a r w' - ⟨hH, hen⟩ ⟨p, hp, hleft⟩ - hact
    have hmay := (((hen t p hp) ▸ hobeys t : p.Obeys _ _ []).after hleft).1
    rw [List.append_nil] at hmay
    refine ⟨hH.awaited hmay hact, fun u q hq => ?_⟩
    rcases List.mem_cons.1 hq with hq | hq
    · cases hq
    · exact hen u q hq
  · rintro l w t x ⟨hH, hen⟩ -
    refine ⟨hH.congr rfl ⟨rfl, fun _ => rfl⟩, fun u q hq => ?_⟩
    rcases List.mem_cons.1 hq with hq | hq
    · cases hq
    · exact hen u q hq
  · exact fun _ _ _ _ _ h => h.elim

/-- A task that has ended has made its call. -/
theorem ended_of_tracked {calls : Nat → CacheCall V}
    {l : List (Event (Op.Resp (V := V)) cfg.sem.Ans Exn (V × Bool))}
    {P : Pool (Op.Resp (V := V)) Exn (World V) (V × Bool)}
    (hT : Sys.Tracked (Y := cacheSys cfg calls) (fun w => {t | t ∈ w.started}) l P)
    (hentered : ∀ t p, .entered t p ∈ l → p = (calls t).run cfg.lib) {t : Nat}
    {x : Except Exn (V × Bool)} (hx : .ended t x ∈ l) :
    ∃ y, (calls t).Ended cfg.lib (pastOf t l) y (pastOf t l) ∧ x = y.map Prod.fst := by
  obtain ⟨-, p, hp, ha⟩ := hT.ended t x hx
  rw [hentered t p hp] at ha
  obtain ⟨y, hy, hxy⟩ := After.of_bind ha
  exact ⟨y, ⟨⟨[], [], by simp⟩, hy⟩, hxy⟩

/-- **Single flight.**  Among the calls of a process, at most one loader is in flight for a key;
    what a call returns was read from the store under its key or produced by a loader for its
    key; the future of a call that has ended is not in the table; and when all owners of a key have
    ended, the next call that misses becomes an owner. -/
theorem single_flight (cfg : Config V) (S : CacheCall V → Prop)
    (hS : ∀ c, S c → c.enabled = true ∧ Client cfg.lib S c.loader)
    (calls : Nat → CacheCall V) (hcalls : ∀ t, S (calls t)) {w₀ : World V} (hw₀ : NoFlights w₀)
    {l : List (Event (Op.Resp (V := V)) cfg.sem.Ans Exn (V × Bool))}
    {P : Pool (Op.Resp (V := V)) Exn (World V) (V × Bool)}
    (h : (cacheSys cfg calls).Trace ⟨w₀, fun _ => none⟩ l P) :
    (∀ t t' k f f', cfg.proc t = cfg.proc t' → InFlight cfg.lib S k f (pastOf t l) →
      InFlight cfg.lib S k f' (pastOf t' l) → t = t' ∧ f = f') ∧
    (∀ t x, .ended t x ∈ l → ∃ y, (calls t).Ended cfg.lib (pastOf t l) y (pastOf t l) ∧
      x = y.map Prod.fst) ∧
    (∀ t c l' v hit s, S c → c.Ended cfg.lib l' (.ok ((v, hit), s)) (pastOf t l) →
      ∃ k, c.key cfg.lib = .ok k ∧
        ((∃ e, ⟨.cacheGet k, .ok (some e)⟩ ∈ l' ∧ cfg.lib.loads e = some v) ∨
          ∃ t' f, cfg.proc t' = cfg.proc t ∧ Produced cfg.lib S k f v (pastOf t' l))) ∧
    (∀ t c l' x k f, S c → c.Ended cfg.lib l' x (pastOf t l) → joinedAs k f ∈ l' →
      ∀ k', (P.world.procs (cfg.proc t)).inflight.get k' ≠ some f) ∧
    ∀ t k, (∀ t' f, cfg.proc t' = cfg.proc t → joinedAs k f ∈ pastOf t' l →
        ∃ c l' x, S c ∧ c.Ended cfg.lib l' x (pastOf t' l) ∧ joinedAs k f ∈ l') →
      ∀ b a r w', cfg.sem.act t b P.world (.inflightJoin k) a = some (r, w') →
        ∃ f, r = .ok (f, true) := by
  obtain ⟨hT, hH, hentered⟩ := held_trace (fun c hc => (hS c hc).2) hcalls hw₀ h
  have hclosed : ∀ t c l' x k f, S c → c.Ended cfg.lib l' x (pastOf t l) →
      joinedAs k f ∈ l' → ∀ k', (P.world.procs (cfg.proc t)).inflight.get k' ≠ some f := by
    intro t c l' x k f hc he hj k' hget
    obtain ⟨u, -, hu⟩ := hH.owner _ f k' hget
    obtain ⟨h₁, h₃, hh⟩ := he.1
    have hj' : joinedAs k f ∈ pastOf t l := by
      rw [hh]
      exact List.mem_append_left _ (List.mem_append_right _ hj)
    obtain ⟨rfl, -⟩ := hH.unique t u f k k' hj' (opens_joined hu)
    exact hH.closed (fun c hc => (hS c hc).2) hc he hj k' hu
  refine ⟨fun t t' k f f' hp h₁ h₂ => ?_, fun t x hx => ended_of_tracked hT hentered hx,
    fun t c l' v hit s hc he => ?_, hclosed, fun t k hended b a r w' hact => ?_⟩
  · have ho₁ : Opens (fun t => pastOf t l) t f k := InFlight.opens (fun c hc => (hS c hc).2) h₁
    have ho₂ : Opens (fun t => pastOf t l) t' f' k := InFlight.opens (fun c hc => (hS c hc).2) h₂
    have hf : some f = some f' := by
      rw [← hH.table t f k ho₁, ← hH.table t' f' k ho₂, hp]
    cases hf
    exact ⟨(hH.unique t t' f k k (opens_joined ho₁) (opens_joined ho₂)).1, rfl⟩
  · exact hH.value hS hc he
  · obtain ⟨C, ⟨c, hc⟩ | ⟨e, rfl, hl, -⟩⟩ := Config.act_cases hact
    · simp only [World.effect] at hc
      split at hc
      · rename_i f hget
        obtain ⟨u, hu, ho⟩ := hH.owner _ f k hget
        obtain ⟨c', l', x, hc', he, hj⟩ := hended u f hu (opens_joined ho)
        exact absurd hget (hu ▸ hclosed u c' l' x k f hc' he hj k)
      · cases hc
        exact ⟨_, rfl⟩
    · cases hl

end

namespace Sample

def cacheConfig : Config String := { lib := Lib.text }

/-- A call whose loader waits for a second. -/
def resultsCall : CacheCall String where
  policies := [("results", { enabled := true })]
  policyName := "results"
  ns := "query"
  material := "same"
  context := { tenantId := some "tenant" }
  state := ()
  loader := do
    await (.sleep 1)
    Pure.pure ("9", ())

/-- Everybody makes this call, at any time. -/
def resultsPlayer : Player (cacheSys cacheConfig fun _ => resultsCall) where
  spawn w t := if t ∈ w.started then none
    else some (resultsCall.run cacheConfig.lib,
      { w with started := insert t w.started })
  enter := by
    intro w t p w' h
    split at h
    · cases h
    · rename_i ht
      cases h
      exact ⟨ht, rfl, rfl⟩
  ok _ _ _ _ := true
  allow _ := trivial

theorem resultsCall_client (S : CacheCall String → Prop) :
    Client cacheConfig.lib S resultsCall.loader :=
  .await rfl (fun _ => .pure _) fun _ => .raise (Or.inl trivial)

/-- Two tasks make the call; the first is the owner. -/
def resultsMoves : List (Move cacheConfig.sem.Ans Exn) :=
  [.enter 0, .run 0 obliging, .run 0 obliging, .enter 1, .run 1 obliging, .run 1 obliging]

end Sample

/-- Two calls at the same time: only the loader of the first is in flight. -/
theorem single_flight_results :
    ∃ (k : String) (l : List (Event (Op.Resp (V := String)) Sample.cacheConfig.sem.Ans Exn
        (String × Bool))) (P : Pool (Op.Resp (V := String)) Exn (World String) (String × Bool)),
      (cacheSys Sample.cacheConfig fun _ => Sample.resultsCall).Trace
        ⟨{}, fun _ => none⟩ l P ∧
      InFlight Sample.cacheConfig.lib (· = Sample.resultsCall) k 0
        (pastOf 0 l) ∧
      ∀ t f, InFlight Sample.cacheConfig.lib (· = Sample.resultsCall) k f
        (pastOf t l) → t = 0 ∧ f = 0 := by
  have hkey : ∃ k, Sample.resultsCall.key Sample.cacheConfig.lib = .ok k :=
    ⟨_, rfl⟩
  obtain ⟨k, hk⟩ := hkey
  obtain ⟨l, P, h, hpast⟩ := Player.exists_trace Sample.resultsPlayer Sample.resultsMoves
    ⟨{}, fun _ => none⟩ (fun x => pastOf 0 x.1) (a := [joinedAs k 0, ⟨.cacheGet k, .ok none⟩])
    (by cases hk; rfl)
  have hin : InFlight Sample.cacheConfig.lib (· = Sample.resultsCall) k 0
      (pastOf 0 l) :=
    ⟨_, rfl, hk, [⟨.cacheGet k, .ok none⟩], [], hpast, _, .refl, rfl⟩
  refine ⟨k, l, P, h, hin, fun t f hf => ?_⟩
  have hres := (single_flight Sample.cacheConfig (· = Sample.resultsCall)
    (by rintro _ rfl; exact ⟨rfl, Sample.resultsCall_client _⟩) (fun _ => Sample.resultsCall)
    (fun _ => rfl) ⟨fun _ => rfl, rfl⟩ h).1 t 0 k f 0 rfl hf hin
  exact hres

end TracciaRuntime
