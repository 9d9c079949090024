/-
  The reservation protocol of the tool executor.

  A row of the execution table belongs to the call that reserved it: until the
  row is FAILED no other call touches it.  `reservations` is the contract of
  the executor's calls, with two optional parts:

  * `live`: a STARTED row belongs to a call that has not ended;
  * `strict`: a COMPLETED row never changes again.

  `execute_safe` shows that every call of `execute` keeps the contract.
-/
import TracciaRuntime.Tools.Executor

namespace TracciaRuntime

open Py Async

variable {V : Type}

/-! ## The ledger of reservations and invocations -/

/-- Tools whose handler must not run twice for one key. -/
def oneShot (cfg : Config V) (tool : String) : Bool :=
  match cfg.tool tool with
  | some d => d.idempotency = .nonIdempotent && !ToolExecutor.readOnly d
  | none => false

namespace World

/-- The handler invocations under an idempotency key. -/
def invocationsOf (w : World V) (key : String) : List (Invocation V) :=
  w.invocations.filter fun i => i.context.idempotencyKey = key

/-- How often a one-shot handler was invoked under a key. -/
def calls (cfg : Config V) (w : World V) (key : String) : Nat :=
  ((w.invocationsOf key).filter fun i => oneShot cfg i.tool).length

end World

/-- A row describes the key it is stored under. -/
structure RowOk (key : String) (row : Row V) : Prop where
  key : row.record.idempotencyKey = key
  status : row.status = row.record.status
  result : row.status = .completed → row.record.result.isSome

/-- The invariant of the execution table and the invocation log. -/
structure Ledger (cfg : Config V) (live : Prop) (w : World V) : Prop where
  rows : ∀ k row, w.executions.get k = some row → RowOk k row
  once : ∀ k, w.calls cfg k ≤ 1
  /-- a key with an invocation is never reserved again -/
  kept : ∀ k, w.calls cfg k ≠ 0 → ∃ row, w.executions.get k = some row ∧ row.status ≠ .failed
  live : live → ∀ k row, w.executions.get k = some row → row.status = .started → row.owner ∉ w.done

/-- What the other calls leave to the call `t`. -/
structure Leaves (cfg : Config V) (strict : Prop) (t : Nat) (w w' : World V) : Prop where
  frozen : ∀ k row, w.executions.get k = some row → row.owner = t → row.status ≠ .failed →
    w'.executions.get k = some row ∧ w'.calls cfg k = w.calls cfg k
  fresh : ∀ k row, w'.executions.get k = some row → row.owner = t → w.executions.get k = some row
  done : t ∈ w'.done → t ∈ w.done
  settled : strict → ∀ k row, w.executions.get k = some row → row.status = .completed →
    w'.executions.get k = some row ∧ w'.invocationsOf k = w.invocationsOf k

/-- The contract of the executor's calls. -/
def reservations (cfg : Config V) (live strict : Prop) : Contract (World V) where
  valid := Ledger cfg live
  rely := Leaves cfg strict
  refl t w := ⟨fun _ _ h _ _ => ⟨h, rfl⟩, fun _ _ h _ => h, id, fun _ _ _ h _ => ⟨h, rfl⟩⟩
  trans := by
    intro t w₁ w₂ w₃ h₁ h₂
    refine ⟨fun k row hk ho hs => ?_, fun k row hk ho => h₁.fresh k row (h₂.fresh k row hk ho) ho,
      fun h => h₁.done (h₂.done h), fun hst k row hk hs => ?_⟩
    · obtain ⟨hk', hc⟩ := h₁.frozen k row hk ho hs
      obtain ⟨hk'', hc'⟩ := h₂.frozen k row hk' ho hs
      exact ⟨hk'', hc'.trans hc⟩
    · obtain ⟨hk', hc⟩ := h₁.settled hst k row hk hs
      obtain ⟨hk'', hc'⟩ := h₂.settled hst k row hk' hs
      exact ⟨hk'', hc'.trans hc⟩

section
variable {cfg : Config V} {live strict : Prop} {t : Nat} {w w' : World V}

theorem World.calls_congr (h : w'.invocations = w.invocations) (k : String) :
    w'.calls cfg k = w.calls cfg k := by
  simp only [World.calls, World.invocationsOf, h]

/-- A world with the same table and log. -/
theorem Leaves.of_eq (he : w'.executions = w.executions) (hi : w'.invocations = w.invocations)
    (hd : w'.done = w.done) : Leaves cfg strict t w w' := by
  refine ⟨fun k row h _ _ => ⟨he ▸ h, World.calls_congr hi k⟩, fun k row h _ => he ▸ h, fun h => hd ▸ h,
    fun _ k row h _ => ⟨he ▸ h, ?_⟩⟩
  simp only [World.invocationsOf, hi]

theorem Ledger.of_eq (h : Ledger cfg live w) (he : w'.executions = w.executions)
    (hi : w'.invocations = w.invocations) (hd : w'.done = w.done) : Ledger cfg live w' := by
  obtain ⟨h₁, h₂, h₃, h₄⟩ := h
  refine ⟨fun k row h => h₁ k row (he ▸ h), fun k => ?_, fun k hk => ?_, fun hl k row h => ?_⟩
  · rw [World.calls_congr hi]; exact h₂ k
  · rw [World.calls_congr hi] at hk; rw [he]; exact h₃ k hk
  · rw [hd]; exact h₄ hl k row (he ▸ h)

/-- **Writing a row**: task `t` may write its own row, and a row that was absent or FAILED. -/
theorem Ledger.write (hv : Ledger cfg live w) {k : String} {row' : Row V}
    (he : w'.executions = w.executions.set k row') (hi : w'.invocations = w.invocations)
    (hd : w'.done = w.done) (hok : RowOk k row') (hown : row'.owner = t)
    (hold : ∀ row, w.executions.get k = some row → row.status = .failed ∨ row.owner = t)
    (hst : strict → ∀ row, w.executions.get k = some row → row.status ≠ .completed)
    (hf : row'.status = .failed → w.calls cfg k = 0) (hl : live → t ∉ w.done) :
    Ledger cfg live w' ∧ ∀ t', t' ≠ t → Leaves cfg strict t' w w' := by
  have get : ∀ k', w'.executions.get k' = if k' = k then some row' else w.executions.get k' :=
    fun k' => by rw [he, Dict.get_set]
  refine ⟨⟨fun k' row h => ?_, fun k' => ?_, fun k' h => ?_, fun hl' k' row h hs => ?_⟩,
    fun t' ht => ⟨fun k' row h ho hs => ?_, fun k' row h ho => ?_, fun h => hd ▸ h,
      fun hs k' row h hc => ?_⟩⟩
  · rw [get] at h
    split at h
    · cases h; subst_vars; exact hok
    · exact hv.rows k' row h
  · rw [World.calls_congr hi]; exact hv.once k'
  · rw [World.calls_congr hi] at h
    rw [get]
    split
    · subst_vars; exact ⟨row', rfl, fun hf' => h (hf hf')⟩
    · exact hv.kept k' h
  · rw [hd]
    rw [get] at h
    split at h
    · cases h; exact hown ▸ hl hl'
    · exact hv.live hl' k' row h hs
  · have hne : k' ≠ k := by
      rintro rfl
      rcases hold row h with h' | h'
      · exact hs h'
      · exact ht (ho.symm.trans h')
    exact ⟨by rw [get, if_neg hne]; exact h, World.calls_congr hi k'⟩
  · rw [get] at h
    split at h
    · cases h; exact absurd (ho.symm.trans hown) ht
    · exact h
  · have hne : k' ≠ k := by rintro rfl; exact hst hs row h hc
    refine ⟨by rw [get, if_neg hne]; exact h, ?_⟩
    simp only [World.invocationsOf, hi]

/-- **Invoking a handler** under a key that `t` holds and that has no invocation yet. -/
theorem Ledger.invoke (hv : Ledger cfg live w) {i : Invocation V} {row : Row V}
    (he : w'.executions = w.executions) (hi : w'.invocations = i :: w.invocations)
    (hd : w'.done = w.done) (hrow : w.executions.get i.context.idempotencyKey = some row)
    (hown : row.owner = t) (hs : row.status ≠ .failed) (hst : strict → row.status ≠ .completed)
    (h0 : w.calls cfg i.context.idempotencyKey = 0) :
    Ledger cfg live w' ∧ ∀ t', t' ≠ t → Leaves cfg strict t' w w' := by
  have other : ∀ k, k ≠ i.context.idempotencyKey → w'.invocationsOf k = w.invocationsOf k := by
    intro k hk
    simp only [World.invocationsOf, hi]
    rw [List.filter_cons_of_neg (by simpa using hk.symm)]
  have calls : ∀ k, k ≠ i.context.idempotencyKey → w'.calls cfg k = w.calls cfg k := by
    intro k hk; simp only [World.calls, other k hk]
  have self : w'.calls cfg i.context.idempotencyKey ≤ 1 := by
    have : w'.invocationsOf i.context.idempotencyKey =
        i :: w.invocationsOf i.context.idempotencyKey := by
      simp only [World.invocationsOf, hi]
      rw [List.filter_cons_of_pos (by simp)]
    simp only [World.calls, this, List.filter_cons] at h0 ⊢
    split
    · rw [List.length_cons, h0]
    · rw [h0]; exact Nat.zero_le 1
  refine ⟨⟨fun k row h => hv.rows k row (he ▸ h), fun k => ?_, fun k h => ?_,
    fun hl k row h => hd ▸ hv.live hl k row (he ▸ h)⟩,
    fun t' ht => ⟨fun k row' h ho _ => ?_, fun k row h _ => he ▸ h, fun h => hd ▸ h,
      fun hs' k row' h hc => ?_⟩⟩
  · by_cases hk : k = i.context.idempotencyKey
    · subst hk; exact self
    · rw [calls k hk]; exact hv.once k
  · rw [he]
    by_cases hk : k = i.context.idempotencyKey
    · subst hk; exact ⟨row, hrow, hs⟩
    · rw [calls k hk] at h; exact hv.kept k h
  · have hk : k ≠ i.context.idempotencyKey := by
      rintro rfl
      rw [hrow] at h; cases h
      exact ht (ho.symm.trans hown)
    exact ⟨he ▸ h, calls k hk⟩
  · have hk : k ≠ i.context.idempotencyKey := by
      rintro rfl
      rw [hrow] at h; cases h
      exact hst hs' hc
    exact ⟨he ▸ h, other k hk⟩

end

/-! ## The conditions of the two optional parts -/

section
variable {cfg : Config V}

/-- The statements of the execution store succeed. -/
def storeSucceeds : (o : Op V) → Act cfg.sem.Ans Exn o → Prop
  | .toolBegin .., a => Completes a
  | .toolComplete .., a => Completes a
  | .toolFail .., a => Completes a
  | .pgInsert _, a => Completes a
  | .pgSelect .., a => Completes a
  | .pgRestart .., a => Completes a
  | .pgGet _, a => Completes a
  | .pgUpdate _, a => Completes a
  | _, _ => True

/-- Nothing strikes a reservation before its handler is called: neither the cache lookup
    nor the wait for the semaphore is cancelled, and a cached value is a tool result. -/
def undisturbed : (o : Op V) → Act cfg.sem.Ans Exn o → Prop
  | .cacheGet _, a => Fails a ∨ ∃ x : Option String, a = .done (Answer.ok x) ∧
      ∀ encoded v, x = some encoded → cfg.lib.loads encoded = some v → cfg.lib.isNone v = false →
        (cfg.lib.toToolResult v).isSome = true
  | .acquire .., a => Completes a
  | _, _ => True

/-- Recording a result does not both happen and raise, and the cache write that follows
    is not cancelled. -/
def lasting : (o : Op V) → Act cfg.sem.Ans Exn o → Prop
  | .toolComplete .., a => Clean a
  | .pgUpdate record, a => record.status = .completed → Clean a
  | .cacheSet .., a => Completes a ∨ Fails a
  | _, _ => True

/-- The environment of the executor's calls. -/
def executeAllow (cfg : Config V) (live strict : Prop) : Allow cfg.sem.Ans Exn (World V) :=
  fun _ _ o a => (live → storeSucceeds o a ∧ undisturbed o a) ∧ (strict → lasting o a)

/-- The cache key of the call can be built. -/
def Scoped (cfg : Config V) (name : String) (context : ToolContext) : Prop :=
  ∀ d policies, cfg.tool name = some d → ToolExecutor.cachePolicies cfg d = some policies →
    (CacheService.policy policies "tool_results").enabled = true →
    ∃ s, CacheService.scopeMaterial (ToolExecutor.cacheContext context)
      (CacheService.policy policies "tool_results").scope = .ok s

end

/-! ## The phases of a call -/

/-- Call `t` holds the row of `k`, in a status `st`, and if `free` the key has no
    invocation yet. -/
structure Phase (cfg : Config V) (t : Nat) (k : String) (st : ToolExecutionStatus → Prop)
    (free : Prop) (w : World V) : Prop where
  row : ∃ row, w.executions.get k = some row ∧ row.owner = t ∧ st row.status
  only : ∀ k' row, w.executions.get k' = some row → row.owner = t → k' = k
  running : t ∉ w.done
  calls : free → w.calls cfg k = 0

/-- The statuses of a reservation that is to be settled. -/
def Open (strict : Prop) (s : ToolExecutionStatus) : Prop :=
  s = .started ∨ (¬ strict ∧ s = .completed)

theorem Open.ne_failed {strict : Prop} {s : ToolExecutionStatus} (h : Open strict s) :
    s ≠ .failed := by
  rcases h with rfl | ⟨-, rfl⟩ <;> decide

/-- The call has left no STARTED row behind. -/
def Resolved (live : Prop) (t : Nat) (w : World V) : Prop :=
  live → ∀ k row, w.executions.get k = some row → row.owner = t → row.status ≠ .started

/-- The call holds no row. -/
structure Outside (t : Nat) (w : World V) : Prop where
  none : ∀ k row, w.executions.get k = some row → row.owner ≠ t
  running : t ∉ w.done

section
variable {cfg : Config V} {live strict : Prop} {t : Nat} {k : String} {w : World V}
  {st : ToolExecutionStatus → Prop} {free : Prop}

theorem Phase.stable (hst : ∀ s, st s → s ≠ .failed) :
    (reservations cfg live strict).Stable t (Phase cfg t k st free) := by
  intro w w' hr h
  obtain ⟨row, hrow, hown, hs⟩ := h.row
  obtain ⟨hrow', hc⟩ := hr.frozen k row hrow hown (hst _ hs)
  exact ⟨⟨row, hrow', hown, hs⟩, fun k' row' h' ho => h.only k' row' (hr.fresh k' row' h' ho) ho,
    fun hd => h.running (hr.done hd), fun hf => hc.trans (h.calls hf)⟩

theorem Outside.stable : (reservations cfg live strict).Stable t (Outside (V := V) t) :=
  fun _ _ hr h => ⟨fun k row hk ho => h.none k row (hr.fresh k row hk ho) ho,
    fun hd => h.running (hr.done hd)⟩

theorem Resolved.stable : (reservations cfg live strict).Stable t (Resolved (V := V) live t) :=
  fun _ _ hr h hl k row hk ho => h hl k row (hr.fresh k row hk ho) ho

theorem Outside.resolved (h : Outside t w) : Resolved live t w :=
  fun _ k row hk ho => absurd ho (h.none k row hk)

theorem Phase.weaken {st' : ToolExecutionStatus → Prop} {free' : Prop}
    (h : Phase cfg t k st free w) (hst : ∀ s, st s → st' s) (hf : free' → free) :
    Phase cfg t k st' free' w := by
  obtain ⟨row, hrow, hown, hs⟩ := h.row
  exact ⟨⟨row, hrow, hown, hst _ hs⟩, h.only, h.running, fun hf' => h.calls (hf hf')⟩

/-- A row other than STARTED is resolved. -/
theorem Phase.resolved (h : Phase cfg t k st free w) (hst : ∀ s, st s → s ≠ .started) :
    Resolved live t w := by
  intro _ k' row' hk' ho
  obtain ⟨row, hrow, hown, hs⟩ := h.row
  cases h.only k' row' hk' ho
  rw [hrow] at hk'; cases hk'
  exact hst _ hs

end

/-! ## The operations -/

/-- Safety of a program of the executor. -/
abbrev ExecSafe {α : Type} (cfg : Config V) (live strict : Prop) (t : Nat)
    (Q : Except Exn α → World V → Prop) (p : Task V α) (w : World V) : Prop :=
  Safe cfg.sem (executeAllow cfg live strict) (reservations cfg live strict) t Q p w

/-- The operation rewrites the record of `k`, giving it status `s`. -/
def Rewrites (cfg : Config V) (t : Nat) (k : String) (s : ToolExecutionStatus) (o : Op V) : Prop :=
  ∀ (w : World V) c r (w' : World V) row, RowOk k row → w.executions.get k = some row →
    w.effect cfg t o c = some (r, w') → (∃ u, r = .ok u) ∧
      ∃ rec : ToolExecutionRecord V, rec.idempotencyKey = k ∧ rec.status = s ∧
        (s = .completed → rec.result.isSome = true) ∧
        w'.executions = w.executions.set k (row.withRecord rec)

section
variable {cfg : Config V} {live strict : Prop} {t : Nat} {k : String}

theorem rewrites_toolComplete (result : ToolResult V) :
    Rewrites cfg t k .completed (.toolComplete k result) := by
  intro w c r w' row hok hrow h
  simp only [World.effect, Executions.updateMem, hrow] at h
  cases h
  exact ⟨⟨(), rfl⟩, row.record.complete result, hok.key, rfl, fun _ => rfl, rfl⟩

theorem rewrites_toolFail (error : String) (indeterminate : Bool) :
    Rewrites cfg t k (if indeterminate then .indeterminate else .failed)
      (.toolFail k error indeterminate) := by
  intro w c r w' row hok hrow h
  simp only [World.effect, Executions.updateMem, hrow] at h
  cases h
  refine ⟨⟨(), rfl⟩, row.record.fail error indeterminate, hok.key, rfl, fun h => ?_, rfl⟩
  split at h <;> cases h

theorem rewrites_pgUpdate {record : ToolExecutionRecord V} (hk : record.idempotencyKey = k)
    (hr : record.status = .completed → record.result.isSome = true) :
    Rewrites cfg t k record.status (.pgUpdate record) := by
  intro w c r w' row hok hrow h
  simp only [World.effect, Executions.update, hk, hrow] at h
  cases h
  exact ⟨⟨(), rfl⟩, record, hk, rfl, hr, rfl⟩

theorem keeps_quiet {o : Op V} (h : o.writesExecutions = false) (h' : o.isHandler = false)
    (G : World V → Prop) :
    Keeps cfg.sem (executeAllow cfg live strict) (reservations cfg live strict) t G o := by
  intro b w a r w' hv _ _ hact
  have f := Config.act_frame hact
  exact ⟨hv.of_eq (f.executions h) (f.invocations h') f.done,
    fun t' => Leaves.of_eq (f.executions h) (f.invocations h') f.done⟩

/-- The operations of the executor that touch neither the table nor the log. -/
def Quiet (o : Op V) : Prop := o.writesExecutions = false ∧ o.isHandler = false

/-- A quiet program keeps the phase of its call. -/
theorem quiet_safe {α : Type} {G : World V → Prop} (hG : (reservations cfg live strict).Stable t G)
    {p : Task V α} (hp : p.Uses Quiet) {w : World V} (hw : G w) :
    ExecSafe cfg live strict t (fun _ => G) p w :=
  (Safe.of_uses hG (hp.mono fun _ h => keeps_quiet h.1 h.2 G) hw).mono fun _ _ h => h.1

section
variable {w w' : World V} {st : ToolExecutionStatus → Prop} {free : Prop}

/-- The holder of a row writes it. -/
theorem Phase.write (hv : Ledger cfg live w) (h : Phase cfg t k (Open strict) free w)
    {row' : Row V} (he : w'.executions = w.executions.set k row')
    (hi : w'.invocations = w.invocations) (hd : w'.done = w.done) (hok : RowOk k row')
    (hown : row'.owner = t) (hf : row'.status = .failed → free) :
    Ledger cfg live w' ∧ (∀ t', t' ≠ t → Leaves cfg strict t' w w') ∧
      Phase cfg t k (· = row'.status) free w' := by
  obtain ⟨row, hrow, hown₀, hs⟩ := h.row
  have hold : ∀ r, w.executions.get k = some r → r.status = .failed ∨ r.owner = t := by
    intro r hr; rw [hrow] at hr; cases hr; exact Or.inr hown₀
  have hstr : strict → ∀ r, w.executions.get k = some r → r.status ≠ .completed := by
    intro hst r hr hc
    rw [hrow] at hr; cases hr
    rcases hs with h' | ⟨h', -⟩
    · rw [h'] at hc; cases hc
    · exact h' hst
  obtain ⟨hv', hr⟩ := hv.write he hi hd hok hown hold hstr (fun hf' => h.calls (hf hf'))
    (fun _ => h.running)
  refine ⟨hv', hr, ⟨row', by rw [he, Dict.get_set_self], hown, rfl⟩, fun k' r hk' ho => ?_,
    hd ▸ h.running, fun hf => (World.calls_congr hi k).trans (h.calls hf)⟩
  by_contra hne
  rw [he, Dict.get_set_ne hne] at hk'
  exact hne (h.only k' r hk' ho)

theorem RowOk.withRecord {row : Row V} {rec : ToolExecutionRecord V}
    (hk : rec.idempotencyKey = k) (hr : rec.status = .completed → rec.result.isSome = true) :
    RowOk k (row.withRecord rec) := ⟨hk, rfl, hr⟩

/-- One rewriting await of the holder. -/
theorem Phase.act_rewrite {o : Op V} {s : ToolExecutionStatus} (ho : Rewrites cfg t k s o)
    (hh : o.isHandler = false) (hv : Ledger cfg live w) (h : Phase cfg t k (Open strict) free w)
    (hf : s = .failed → free) {b : Bool} {a : Act cfg.sem.Ans Exn o} {r : Except Exn o.Resp}
    (hact : cfg.sem.act t b w o a = some (r, w')) :
    Ledger cfg live w' ∧ (∀ t', t' ≠ t → Leaves cfg strict t' w w') ∧
      ((∃ u, r = .ok u) ∧ Phase cfg t k (· = s) free w' ∨
       (∃ e, r = .error e) ∧ ¬ Completes a ∧
        (Phase cfg t k (Open strict) free w' ∨ ¬ Clean a ∧ Phase cfg t k (· = s) free w')) := by
  obtain ⟨row, hrow, hown, hs⟩ := h.row
  have fr := Config.act_frame hact
  -- the operation takes effect, for some cancellation flags
  have eff : ∀ {C} {c : o.Choice} {r₁},
      (w.flagged C).effect cfg t o c = some (r₁, w') →
      (∃ u, r₁ = .ok u) ∧ Ledger cfg live w' ∧ (∀ t', t' ≠ t → Leaves cfg strict t' w w') ∧
        Phase cfg t k (· = s) free w' := by
    intro C c r₁ hc
    obtain ⟨hu, rec, hk, hs', hr, he⟩ := ho (w.flagged C) c r₁ w' row (hv.rows k row hrow) hrow hc
    obtain ⟨h₁, h₂, h₃⟩ := h.write hv he (fr.invocations hh) fr.done
      (RowOk.withRecord hk fun hc => hr (hs' ▸ hc)) hown (fun hf' => hf (hs'.symm.trans hf'))
    exact ⟨hu, h₁, h₂, hs' ▸ h₃⟩
  -- nothing happens
  have idle : ∀ {C}, w' = w.flagged C →
      Ledger cfg live w' ∧ (∀ t', t' ≠ t → Leaves cfg strict t' w w') ∧
        Phase cfg t k (Open strict) free w' := by
    rintro C rfl
    exact ⟨hv.of_eq rfl rfl rfl, fun _ _ => Leaves.of_eq rfl rfl rfl, h.row, h.only, h.running,
      h.calls⟩
  have touch : ∀ w₁ : World V, w₁.touch t o = w₁ := by intro w₁; cases o <;> first | rfl | cases hh
  by_cases hcl : Clean a
  · rcases hcl.act hact with ⟨c, hc⟩ | ⟨C, e, rfl, hw⟩
    · obtain ⟨hu, h₁, h₂, h₃⟩ := eff (C := w.cancelRequested) hc
      exact ⟨h₁, h₂, Or.inl ⟨hu, h₃⟩⟩
    · rw [touch, or_self] at hw
      obtain ⟨h₁, h₂, h₃⟩ := idle hw
      refine ⟨h₁, h₂, Or.inr ⟨⟨e, rfl⟩, fun hco => ?_, Or.inl h₃⟩⟩
      obtain ⟨c, hc⟩ := hco.act hact
      obtain ⟨⟨u, hu⟩, -⟩ := eff (C := w.cancelRequested) hc
      cases hu
  · obtain ⟨C, ⟨c, hc⟩ | ⟨e, rfl, -, hw⟩⟩ := Config.act_cases hact
    · obtain ⟨hu, h₁, h₂, h₃⟩ := eff hc
      exact ⟨h₁, h₂, Or.inl ⟨hu, h₃⟩⟩
    · have hnc : ¬ Completes a := fun hco => hcl hco.clean
      rw [touch, ← or_assoc, or_self] at hw
      rcases hw with hw | ⟨c, r', hc⟩
      · obtain ⟨h₁, h₂, h₃⟩ := idle hw
        exact ⟨h₁, h₂, Or.inr ⟨⟨e, rfl⟩, hnc, Or.inl h₃⟩⟩
      · obtain ⟨-, h₁, h₂, h₃⟩ := eff hc
        exact ⟨h₁, h₂, Or.inr ⟨⟨e, rfl⟩, hnc, Or.inr ⟨hcl, h₃⟩⟩⟩

end

end

/-! ## The methods of the execution stores -/

/-- The outcome of rewriting the record to status `s`. -/
def Rewritten {α : Type} (cfg : Config V) (live strict : Prop) (t : Nat) (k : String)
    (s : ToolExecutionStatus) (free : Prop) : Except Exn α → World V → Prop
  | .ok _, w => Phase cfg t k (· = s) free w
  | .error _, w => ¬ live ∧ (Phase cfg t k (Open strict) free w ∨
      Phase cfg t k (· = s) free w ∧ (s = .completed → ¬ strict))

section
variable {cfg : Config V} {live strict : Prop} {t : Nat} {k : String} {free : Prop} {w : World V}

theorem Open.stable : (reservations cfg live strict).Stable t (Phase cfg t k (Open strict) free) :=
  Phase.stable fun _ => Open.ne_failed

theorem rewrite_safe {o : Op V} {s : ToolExecutionStatus} (ho : Rewrites cfg t k s o)
    (hh : o.isHandler = false) (hl : ∀ a : Act cfg.sem.Ans Exn o, storeSucceeds o a → Completes a)
    (hs : s = .completed → ∀ a : Act cfg.sem.Ans Exn o, lasting o a → Clean a)
    (hf : s = .failed → free) (hw : Phase cfg t k (Open strict) free w) :
    ExecSafe cfg live strict t (Rewritten cfg live strict t k s free) (await o) w := by
  refine Safe.call fun w₁ hr hv a ha r w₂ hact => ?_
  obtain ⟨hv', hlv, hc⟩ := (Open.stable _ _ hr hw).act_rewrite ho hh hv hf hact
  refine ⟨hv', hlv, ?_⟩
  rcases hc with ⟨⟨u, rfl⟩, h⟩ | ⟨⟨e, rfl⟩, hnc, h⟩
  · exact h
  · refine ⟨fun hlive => hnc (hl a (ha.1 hlive).1), h.imp id fun h' => ⟨h'.2, fun hc hst => ?_⟩⟩
    exact h'.1 (hs hc a (ha.2 hst))

/-- `updatePostgres` reads the record of the key and rewrites it. -/
theorem updatePostgres_safe {f : ToolExecutionRecord V → ToolExecutionRecord V}
    {s : ToolExecutionStatus} (hk : ∀ r, (f r).idempotencyKey = r.idempotencyKey)
    (hst : ∀ r, (f r).status = s) (hr : s = .completed → ∀ r, (f r).result.isSome = true)
    (hf : s = .failed → free) (hw : Phase cfg t k (Open strict) free w) :
    ExecSafe cfg live strict t (Rewritten cfg live strict t k s free)
      (ToolExecutionStore.updatePostgres k f) w := by
  refine Safe.bind (Safe.call fun w₁ hrel hv a ha r w₂ hact => ?_)
  obtain ⟨hv', hl'⟩ := keeps_quiet rfl rfl (fun _ => True) false w₁ a r w₂ hv trivial ha hact
  have h₁ := Open.stable _ _ hrel hw
  have h₂ := Open.stable _ _ (hl' t) h₁
  refine ⟨hv', fun t' _ => hl' t', ?_⟩
  obtain ⟨row, hrow, -⟩ := h₁.row
  obtain ⟨C, ⟨c, hc⟩ | ⟨e, rfl, -⟩⟩ := Config.act_cases hact
  · cases hc
    simp only [World.flagged, hrow, Option.map_some]
    have hok := hv.rows k row hrow
    rw [← hst row.record]
    refine rewrite_safe (rewrites_pgUpdate ((hk _).trans hok.key) fun hc => ?_) rfl (fun _ h => h)
      (fun hc a h => h hc) (fun hc => hf ((hst _).symm.trans hc)) h₂
    exact hr ((hst _).symm.trans hc) row.record
  · refine ⟨fun hlive => ?_, Or.inl h₂⟩
    obtain ⟨c, hc⟩ := ((ha.1 hlive).1 : Completes a).act hact
    cases hc

theorem complete_safe (result : ToolResult V) (hw : Phase cfg t k (Open strict) free w) :
    ExecSafe cfg live strict t (Rewritten cfg live strict t k .completed free)
      (ToolExecutionStore.complete cfg k result) w := by
  unfold ToolExecutionStore.complete
  split
  · exact rewrite_safe (rewrites_toolComplete result) rfl (fun _ h => h) (fun _ _ h => h) nofun hw
  · exact updatePostgres_safe (fun _ => rfl) (fun _ => rfl) (fun _ _ => rfl) nofun hw

theorem fail_safe (error : String) {indeterminate : Bool} (hf : indeterminate = false → free)
    (hw : Phase cfg t k (Open strict) free w) :
    ExecSafe cfg live strict t (fun _ => Resolved live t)
      (ToolExecutionStore.fail cfg k error indeterminate) w := by
  have hs : (if indeterminate then ToolExecutionStatus.indeterminate else .failed) = .failed →
      free := by
    intro h; cases indeterminate
    · exact hf rfl
    · cases h
  have key : ExecSafe cfg live strict t (Rewritten cfg live strict t k
      (if indeterminate then .indeterminate else .failed) free)
      (ToolExecutionStore.fail cfg k error indeterminate) w := by
    cases hts : cfg.toolStore <;> simp only [ToolExecutionStore.fail, hts]
    · refine rewrite_safe (rewrites_toolFail error indeterminate) rfl (fun _ h => h) ?_ hs hw
      intro h; cases indeterminate <;> cases h
    · refine updatePostgres_safe (fun _ => rfl) (fun _ => rfl) ?_ hs hw
      intro h; cases indeterminate <;> cases h
  refine key.mono fun x w' h => ?_
  cases x with
  | ok u =>
    refine Phase.resolved h ?_
    rintro s rfl; cases indeterminate <;> decide
  | error e => exact fun hlive => absurd hlive h.1

end

end TracciaRuntime
