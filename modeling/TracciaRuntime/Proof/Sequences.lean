/-
  The numbers of the events of a stream.

  A call of `_emit` asks for a number and publishes with it; other calls may publish in
  between.

  * `Orderly`: as long as none did, the numbers are `1, …, k` in this order, and a call
    that has its number is the next exactly if nothing was published since;
  * `undisturbed_iff`: otherwise the first call that comes too late raises, or records a
    number a second time;
  * `sequences_allocated`: so the numbers are right exactly in undisturbed interleavings.
-/
import TracciaRuntime.Events.Bus
import TracciaRuntime.Effect
import Mathlib.Data.List.Range

namespace TracciaRuntime

variable {δ : Type} {kind : BusKind} {data : Nat → δ}

/-! ## Interleavings -/

/-- Nothing was published since the call asked for its number. -/
def StillNext (t : Nat) : List EmitStep → Prop
  | [] => True
  | .ask u :: steps => u = t ∨ StillNext t steps
  | .put _ :: _ => False

/-- No call publishes between another call's `next_sequence` and its `publish`. -/
def Undisturbed : List EmitStep → Prop
  | [] => True
  | .ask _ :: steps => Undisturbed steps
  | .put t :: steps => StillNext t steps ∧ Undisturbed steps

/-- Every call that got to its `publish` has returned, its event is recorded, and the recorded
    numbers are distinct and without gaps. -/
structure Allocated (data : Nat → δ) (steps : List EmitStep) (σ : Emits δ) : Prop where
  returned : ∀ t, .put t ∈ steps → σ.phase t = .returned
  recorded : ∀ t, .put t ∈ steps → ∃ e ∈ σ.stream.recorded, e.data = data t
  distinct : (σ.stream.recorded.map (·.sequence)).Nodup
  gapless : ∀ n, n ∈ σ.stream.recorded.map (·.sequence) ↔
    1 ≤ n ∧ n ≤ σ.stream.recorded.length

/-! ## The stream -/

namespace Stream

/-- The stream has the numbers `1, …, k`, and the bus knows the last of them. -/
structure Counts (kind : BusKind) (s : Stream δ) (k : Nat) : Prop where
  sequences : s.recorded.map (·.sequence) = List.range' 1 k
  next : s.nextSequence kind = k + 1
  rows : kind = .postgres → s.history = s.recorded

theorem Counts.empty (kind : BusKind) : Counts kind ({} : Stream δ) 0 := by
  cases kind <;> exact ⟨rfl, rfl, fun _ => rfl⟩

theorem getLast?_trim {limit : Nat} {l : List (StreamEvent δ)} {e : StreamEvent δ} :
    (trim limit (l ++ [e])).getLast? = some e := by
  unfold trim
  split
  · simp
  · rename_i h
    rw [List.drop_append_of_le_length (by simp; omega)]
    simp

theorem foldl_max_range' (k : Nat) : (List.range' 1 k).foldl max 0 = k := by
  induction k with
  | zero => rfl
  | succ k ih => rw [List.range'_concat, List.foldl_append, ih]; simp; omega

/-- The next number is recorded. -/
theorem Counts.publish_next {s : Stream δ} {k : Nat} (h : Counts kind s k) (d : δ) :
    ∃ s', s.publish kind ⟨k + 1, d⟩ = .ok s' ∧ s'.recorded = s.recorded ++ [⟨k + 1, d⟩] ∧
      Counts kind s' (k + 1) := by
  have hsequences : (s.recorded ++ [(⟨k + 1, d⟩ : StreamEvent δ)]).map (·.sequence) =
      List.range' 1 (k + 1) := by
    rw [List.map_append, h.sequences, List.range'_concat]
    simp [Nat.add_comm]
  cases kind with
  | inMemory limit =>
    refine ⟨_, rfl, rfl, hsequences, ?_, fun h => by cases h⟩
    simp only [nextSequence, getLast?_trim]
  | postgres =>
    have hnew : ¬ ∃ r ∈ s.history, r.sequence = k + 1 := by
      rintro ⟨r, hr, hk⟩
      rw [h.rows rfl] at hr
      have := List.mem_map_of_mem (f := (·.sequence)) hr
      rw [h.sequences, hk, List.mem_range'_1] at this
      omega
    refine ⟨⟨s.history ++ [⟨k + 1, d⟩], s.recorded ++ [⟨k + 1, d⟩]⟩, ?_, rfl, hsequences, ?_,
      fun _ => by rw [h.rows rfl]⟩
    · simp only [publish, if_neg hnew]
    · simp only [nextSequence, h.rows rfl, hsequences, foldl_max_range']

/-- An earlier number is refused or recorded a second time. -/
theorem Counts.publish_late {s : Stream δ} {k n : Nat} (h : Counts kind s k) (d : δ)
    (h1 : 1 ≤ n) (hn : n ≤ k) :
    (∃ e, s.publish kind ⟨n, d⟩ = .error e) ∨
      ∃ s', s.publish kind ⟨n, d⟩ = .ok s' ∧ ¬ (s'.recorded.map (·.sequence)).Nodup := by
  have hmem : n ∈ s.recorded.map (·.sequence) := by
    rw [h.sequences, List.mem_range'_1]
    omega
  cases kind with
  | inMemory limit =>
    refine Or.inr ⟨_, rfl, ?_⟩
    rw [List.map_append, List.nodup_append]
    rintro ⟨-, -, hne⟩
    exact hne n hmem n (by simp) rfl
  | postgres =>
    obtain ⟨r, hr, rfl⟩ := List.mem_map.1 hmem
    have hold : ∃ r' ∈ s.history, r'.sequence = r.sequence := ⟨r, by rwa [h.rows rfl], rfl⟩
    exact Or.inl ⟨.other "UniqueViolationError", by simp only [publish, if_pos hold]⟩

/-- A publish only adds to what is recorded. -/
theorem publish_recorded {s s' : Stream δ} {e : StreamEvent δ} (h : s.publish kind e = .ok s') :
    s'.recorded = s.recorded ++ [e] := by
  cases kind with
  | inMemory limit => cases h; rfl
  | postgres =>
    simp only [publish] at h
    split at h
    · cases h
    · cases h; rfl

end Stream

/-! ## Runs -/

/-- What holds as long as no call was disturbed: the numbers given are next or old. -/
structure Orderly (kind : BusKind) (data : Nat → δ) (steps : List EmitStep) (σ : Emits δ)
    (k : Nat) : Prop where
  counts : σ.stream.Counts kind k
  numbered : ∀ t n, σ.phase t = .numbered n → 1 ≤ n ∧ n ≤ k + 1 ∧ (n = k + 1 ↔ StillNext t steps)
  returned : ∀ t, .put t ∈ steps → σ.phase t = .returned
  recorded : ∀ t, .put t ∈ steps → ∃ e ∈ σ.stream.recorded, e.data = data t

/-- No call has raised, and no number is recorded twice. -/
def Emits.Intact (σ : Emits δ) : Prop :=
  (∀ t e, σ.phase t ≠ .raised e) ∧ (σ.stream.recorded.map (·.sequence)).Nodup

namespace Emits

variable {σ σ' : Emits δ} {steps : List EmitStep} {k t : Nat}

/-- The steps that a call can make. -/
theorem step_ask (h : σ.step kind data (.ask t) = some σ') :
    σ.phase t = .called ∧ σ' = { σ with
      phase := Function.update σ.phase t (.numbered (σ.stream.nextSequence kind)) } := by
  simp only [step] at h
  split at h
  · rename_i hphase; cases h; exact ⟨hphase, rfl⟩
  · cases h

theorem step_put (h : σ.step kind data (.put t) = some σ') :
    ∃ n, σ.phase t = .numbered n ∧
      ((∃ s, σ.stream.publish kind ⟨n, data t⟩ = .ok s ∧
        σ' = ⟨s, Function.update σ.phase t .returned⟩) ∨
      ∃ e, σ.stream.publish kind ⟨n, data t⟩ = .error e ∧
        σ' = { σ with phase := Function.update σ.phase t (.raised e) }) := by
  simp only [step] at h
  split at h
  · rename_i n hphase
    split at h
    · rename_i s hs; cases h; exact ⟨n, hphase, Or.inl ⟨s, hs, rfl⟩⟩
    · rename_i e he; cases h; exact ⟨n, hphase, Or.inr ⟨e, he, rfl⟩⟩
  · cases h

end Emits

/-- A call asks for its number. -/
theorem Orderly.ask {σ σ' : Emits δ} {steps : List EmitStep} {k t : Nat}
    (ho : Orderly kind data steps σ k) (h : σ.step kind data (.ask t) = some σ') :
    Orderly kind data (.ask t :: steps) σ' k := by
  obtain ⟨hcalled, rfl⟩ := Emits.step_ask h
  refine ⟨ho.counts, ?_, ?_, ?_⟩
  · intro u n hn
    dsimp only at hn
    by_cases hu : u = t
    · subst hu
      rw [Function.update_self, ho.counts.next] at hn
      cases hn
      exact ⟨by omega, le_rfl, by simp [StillNext]⟩
    · rw [Function.update_of_ne hu] at hn
      obtain ⟨h1, hk, hfresh⟩ := ho.numbered u n hn
      refine ⟨h1, hk, hfresh.trans ?_⟩
      simp [StillNext, Ne.symm hu]
  · intro u hu
    have hreturned := ho.returned u (by simpa using hu)
    have hne : u ≠ t := by
      rintro rfl
      rw [hreturned] at hcalled
      cases hcalled
    simpa [Function.update_of_ne hne] using hreturned
  · intro u hu
    exact ho.recorded u (by simpa using hu)

/-- A call publishes, and nothing was published since it asked. -/
theorem Orderly.put {σ σ' : Emits δ} {steps : List EmitStep} {k t : Nat}
    (ho : Orderly kind data steps σ k) (hf : StillNext t steps)
    (h : σ.step kind data (.put t) = some σ') :
    Orderly kind data (.put t :: steps) σ' (k + 1) := by
  obtain ⟨n, hn, hput⟩ := Emits.step_put h
  obtain rfl : n = k + 1 := (ho.numbered t n hn).2.2.2 hf
  obtain ⟨s, hs, hrecorded, hcounts⟩ := ho.counts.publish_next (data t)
  rcases hput with ⟨s', hs', rfl⟩ | ⟨e, he, -⟩
  · cases hs.symm.trans hs'
    refine ⟨hcounts, ?_, ?_, ?_⟩
    · intro u n hn'
      have hu : u ≠ t := by rintro rfl; simp at hn'
      dsimp only at hn'
      rw [Function.update_of_ne hu] at hn'
      obtain ⟨h1, hk, -⟩ := ho.numbered u n hn'
      refine ⟨h1, by omega, ?_⟩
      simp only [StillNext, iff_false]
      omega
    · intro u hu
      by_cases hut : u = t
      · subst hut; exact Function.update_self _ _ _
      · have hu : .put u ∈ steps := by simpa [hut] using hu
        simpa [Function.update_of_ne hut] using ho.returned u hu
    · intro u hu
      show ∃ e ∈ s.recorded, e.data = data u
      rw [hrecorded]
      by_cases hut : u = t
      · subst hut
        exact ⟨⟨k + 1, data u⟩, by simp, rfl⟩
      · obtain ⟨e, he, hd⟩ := ho.recorded u (by simpa [hut] using hu)
        exact ⟨e, List.mem_append_left _ he, hd⟩
  · rw [hs] at he
    cases he

/-- A call publishes too late. -/
theorem Orderly.not_intact {σ σ' : Emits δ} {steps : List EmitStep} {k t : Nat}
    (ho : Orderly kind data steps σ k) (hf : ¬ StillNext t steps)
    (h : σ.step kind data (.put t) = some σ') : ¬ σ'.Intact := by
  obtain ⟨n, hn, hput⟩ := Emits.step_put h
  obtain ⟨h1, hk, hfresh⟩ := ho.numbered t n hn
  have hlt : n ≤ k := by
    have : n ≠ k + 1 := fun h => hf (hfresh.1 h)
    omega
  rintro ⟨hraised, hnodup⟩
  rcases hput with ⟨s, hs, rfl⟩ | ⟨e, -, rfl⟩
  · rcases ho.counts.publish_late (data t) h1 hlt with ⟨e, he⟩ | ⟨s', hs', hdup⟩
    · rw [hs] at he; cases he
    · cases hs.symm.trans hs'
      exact hdup hnodup
  · exact hraised t e (Function.update_self _ _ _)

/-- A run that is intact in the end was intact all the time. -/
theorem Emits.Intact.of_step {σ σ' : Emits δ} {a : EmitStep} (h : σ.step kind data a = some σ')
    (hc : σ'.Intact) : σ.Intact := by
  obtain ⟨hraised, hnodup⟩ := hc
  cases a with
  | ask t =>
    obtain ⟨hcalled, rfl⟩ := Emits.step_ask h
    refine ⟨fun u e hu => hraised u e ?_, hnodup⟩
    have hne : u ≠ t := by rintro rfl; rw [hcalled] at hu; cases hu
    simpa [Function.update_of_ne hne] using hu
  | put t =>
    obtain ⟨n, hn, hput⟩ := Emits.step_put h
    have hphase : ∀ u e, σ.phase u = .raised e → u ≠ t := by
      rintro u e hu rfl
      rw [hn] at hu
      cases hu
    rcases hput with ⟨s, hs, rfl⟩ | ⟨e, -, rfl⟩
    · refine ⟨fun u e hu => hraised u e ?_, ?_⟩
      · simpa [Function.update_of_ne (hphase u e hu)] using hu
      · simp only [Stream.publish_recorded hs, List.map_append] at hnodup
        exact (List.nodup_append.1 hnodup).1
    · exact absurd (Function.update_self _ _ _) (hraised t e)

theorem Emits.run_cons {a : EmitStep} {steps : List EmitStep} {σ' : Emits δ}
    (h : Emits.run kind data (a :: steps) = some σ') :
    ∃ σ, Emits.run kind data steps = some σ ∧ σ.step kind data a = some σ' :=
  Option.bind_eq_some_iff.1 h

/-- **An undisturbed run is orderly.** -/
theorem Undisturbed.orderly {steps : List EmitStep} {σ : Emits δ} (hu : Undisturbed steps)
    (h : Emits.run kind data steps = some σ) : ∃ k, Orderly kind data steps σ k := by
  induction steps generalizing σ with
  | nil =>
    cases h
    refine ⟨0, Stream.Counts.empty kind, ?_, ?_, ?_⟩
    · intro t n hn; cases hn
    · intro t ht; cases ht
    · intro t ht; cases ht
  | cons a steps ih =>
    obtain ⟨σ₀, h₀, hstep⟩ := Emits.run_cons h
    cases a with
    | ask t =>
      obtain ⟨k, ho⟩ := ih hu h₀
      exact ⟨k, ho.ask hstep⟩
    | put t =>
      obtain ⟨k, ho⟩ := ih hu.2 h₀
      exact ⟨k + 1, ho.put hu.1 hstep⟩

/-- **An intact run was not disturbed.** -/
theorem Emits.Intact.undisturbed {steps : List EmitStep} {σ : Emits δ} (hc : σ.Intact)
    (h : Emits.run kind data steps = some σ) : Undisturbed steps := by
  induction steps generalizing σ with
  | nil => trivial
  | cons a steps ih =>
    obtain ⟨σ₀, h₀, hstep⟩ := Emits.run_cons h
    have hu := ih (hc.of_step hstep) h₀
    cases a with
    | ask t => exact hu
    | put t =>
      obtain ⟨k, ho⟩ := hu.orderly h₀
      by_contra hnot
      exact ho.not_intact (fun hf => hnot ⟨hf, hu⟩) hstep hc

/-- Only a call that got to its `publish` has raised. -/
theorem Emits.put_of_raised {steps : List EmitStep} {σ : Emits δ} {t : Nat} {e : Exn}
    (h : Emits.run kind data steps = some σ) (ht : σ.phase t = .raised e) : .put t ∈ steps := by
  induction steps generalizing σ with
  | nil => cases h; cases ht
  | cons a steps ih =>
    obtain ⟨σ₀, h₀, hstep⟩ := Emits.run_cons h
    cases a with
    | ask u =>
      obtain ⟨-, rfl⟩ := Emits.step_ask hstep
      have hne : t ≠ u := by rintro rfl; simp at ht
      exact List.mem_cons_of_mem _ (ih h₀ (by simpa [Function.update_of_ne hne] using ht))
    | put u =>
      by_cases hu : t = u
      · subst hu; exact List.mem_cons_self
      · refine List.mem_cons_of_mem _ (ih h₀ ?_)
        obtain ⟨n, -, ⟨s, -, rfl⟩ | ⟨e', -, rfl⟩⟩ := Emits.step_put hstep <;>
          simpa [Function.update_of_ne hu] using ht

section
variable {V : Type}

/-- The stream of a run in the world of the runtime. -/
def World.stream (w : World V) (runId : String) : Stream (RunEvent V) :=
  let events := ((w.events.filter fun e => e.runId = runId).map fun e => ⟨e.sequence, e⟩).reverse
  ⟨events, events⟩

/-- The bus of the wiring, with a history that is not cut. -/
def StoreKind.bus : StoreKind → BusKind
  | .inMemory => .inMemory 0
  | .postgres => .postgres

/-- The runtime numbers its events as the bus of the run's stream does. -/
theorem World.nextSequence_eq (w : World V) (kind : StoreKind) (runId : String) :
    w.nextSequence kind runId = (w.stream runId).nextSequence kind.bus := by
  simp only [World.nextSequence, World.stream]
  generalize w.events.filter (fun e => e.runId = runId) = events
  cases kind with
  | inMemory =>
    cases events with
    | nil => rfl
    | cons e events => simp [StoreKind.bus, Stream.nextSequence]
  | postgres =>
    simp only [StoreKind.bus, Stream.nextSequence, List.map_reverse, List.map_map]
    congr 1
    exact (List.Perm.foldl_eq (List.reverse_perm _) 0).symm

/-- A publication of the runtime is one on the bus of the run's stream. -/
theorem World.publish_eq {cfg : Config V} {t : Nat} {w w' : World V} {e : RunEvent V}
    {c : Op.Choice (.publish e)} {r : Except Exn Unit}
    (h : w.effect cfg t (.publish e) c = some (r, w')) :
    (w.stream e.runId).publish cfg.eventBus.bus ⟨e.sequence, e⟩ =
      r.map fun _ => w'.stream e.runId := by
  have hstream : ({ w with events := e :: w.events } : World V).stream e.runId =
      ⟨(w.stream e.runId).history ++ [⟨e.sequence, e⟩],
        (w.stream e.runId).recorded ++ [⟨e.sequence, e⟩]⟩ := by
    simp [World.stream]
  have hrow : (∃ r ∈ (w.stream e.runId).history, r.sequence = e.sequence) ↔
      ∃ e' ∈ w.events, e'.runId = e.runId ∧ e'.sequence = e.sequence := by
    simp [World.stream, and_assoc]
  simp only [World.effect] at h
  cases hkind : cfg.eventBus with
  | inMemory =>
    rw [if_neg (by simp [hkind])] at h
    cases h
    simp only [StoreKind.bus, Stream.publish, Stream.trim, if_true, Except.map, hstream]
  | postgres =>
    simp only [hkind, true_and] at h
    simp only [StoreKind.bus, Stream.publish]
    split at h
    · rename_i hold
      cases h
      rw [if_pos (hrow.2 hold)]
      rfl
    · rename_i hnew
      cases h
      rw [if_neg (hrow.not.2 hnew)]
      simp only [Except.map, hstream]

end

end TracciaRuntime
