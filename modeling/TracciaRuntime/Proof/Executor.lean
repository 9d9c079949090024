/-
  Every call of `ToolExecutor.execute` keeps the reservation contract.

  The proofs follow the program: the handler loop, the output checks with the
  recording of the result, the cache lookup, the reservation.
-/
import TracciaRuntime.Proof.Reservation

namespace TracciaRuntime

open Py Async ToolExecutor

variable {V : Type} {cfg : Config V} {live strict : Prop} {t : Nat} {w : World V}
  {d : ToolDefinition V} {name : String} {arguments : Dict String V} {context : ToolContext}

/-! ## The handler -/

/-- One call of the handler by the holder of its key. -/
theorem Phase.act_handler {w' : World V} (hv : Ledger cfg live w)
    (h : Phase cfg t context.idempotencyKey (Open strict) True w) {b : Bool}
    {a : Act cfg.sem.Ans Exn (.handler name arguments context)} {r : Except Exn V}
    (hact : cfg.sem.act t b w (.handler name arguments context) a = some (r, w')) :
    Ledger cfg live w' ∧ (∀ t', t' ≠ t → Leaves cfg strict t' w w') ∧
      Phase cfg t context.idempotencyKey (Open strict) (oneShot cfg name = false) w' := by
  obtain ⟨row, hrow, hown, hs⟩ := h.row
  have h0 := h.calls trivial
  have hst : strict → row.status ≠ .completed := by
    intro hst hc
    rcases hs with h' | ⟨h', -⟩
    · rw [h'] at hc; cases hc
    · exact h' hst
  -- the handler is not called at all
  have idle : ∀ {C}, w' = w.flagged C →
      Ledger cfg live w' ∧ (∀ t', t' ≠ t → Leaves cfg strict t' w w') ∧
        Phase cfg t context.idempotencyKey (Open strict) (oneShot cfg name = false) w' := by
    rintro C rfl
    exact ⟨hv.of_eq rfl rfl rfl, fun _ _ => Leaves.of_eq rfl rfl rfl, h.row, h.only, h.running,
      fun _ => h0⟩
  -- the handler is called
  have called : ∀ {C}, w' = (w.flagged C).touch t (.handler name arguments context) →
      Ledger cfg live w' ∧ (∀ t', t' ≠ t → Leaves cfg strict t' w w') ∧
        Phase cfg t context.idempotencyKey (Open strict) (oneShot cfg name = false) w' := by
    rintro C rfl
    have hi : ((w.flagged C).touch t (.handler name arguments context)).invocations =
        ⟨t, name, arguments, context, w.planned t⟩ :: w.invocations := rfl
    have hex : ((w.flagged C).touch t (.handler name arguments context)).executions =
        w.executions := rfl
    obtain ⟨h₁, h₂⟩ := hv.invoke hex hi rfl hrow hown hs.ne_failed hst h0
    refine ⟨h₁, h₂, h.row, h.only, h.running, fun hn => ?_⟩
    simp only [World.calls, World.invocationsOf, World.touch, World.flagged] at h0 ⊢
    rw [List.filter_cons_of_pos (by simp), List.filter_cons_of_neg (by simp [hn])]
    exact h0
  obtain ⟨C, ⟨c, hc⟩ | ⟨e, rfl, -, hw | hw | ⟨c, r', hc⟩⟩⟩ := Config.act_cases hact
  · cases hc; exact called rfl
  · exact idle hw
  · exact called hw
  · cases hc; exact called rfl

theorem handler_safe (h : Phase cfg t context.idempotencyKey (Open strict) True w) :
    ExecSafe cfg live strict t
      (fun _ => Phase cfg t context.idempotencyKey (Open strict) (oneShot cfg name = false))
      (await (.handler name arguments context)) w := by
  refine Safe.call fun w₁ hr hv a ha r w₂ hact => ?_
  exact (Open.stable _ _ hr h).act_handler hv hact

/-- The loop over the attempts: a one-shot handler has a single attempt. -/
theorem attempts_safe {attempt rest : Nat} (hone : oneShot cfg name = true → rest = 0)
    (h : Phase cfg t context.idempotencyKey (Open strict) True w) :
    ExecSafe cfg live strict t
      (fun _ => Phase cfg t context.idempotencyKey (Open strict) (oneShot cfg name = false))
      (attempts d name arguments context attempt rest) w := by
  induction rest generalizing attempt w with
  | zero =>
    refine Safe.handle ((handler_safe h).mono fun x w' hx => ?_)
    cases x with
    | ok v => exact hx
    | error e =>
      exact quiet_safe Open.stable (Prog.Uses.bind (Prog.Uses.lift _) fun _ => Prog.Uses.throw e) hx
  | succ rest ih =>
    have hns : oneShot cfg name = false := by
      by_contra hc; simp only [Bool.not_eq_false] at hc; cases hone hc
    have back : ∀ {w' : World V},
        Phase cfg t context.idempotencyKey (Open strict) (oneShot cfg name = false) w' →
        Phase cfg t context.idempotencyKey (Open strict) True w' :=
      fun hp => hp.weaken (fun _ => id) fun _ => hns
    refine Safe.bind ?_
    have first : ExecSafe cfg live strict t
        (fun _ => Phase cfg t context.idempotencyKey (Open strict) (oneShot cfg name = false))
        (tryCatch (do let v ← await (.handler name arguments context); pure (some v))
          fun e => do Prog.lift (handlerRaised name false e); pure none) w := by
      refine Safe.handle (Safe.bind ((handler_safe h).mono fun x w' hx => ?_))
      cases x with
      | ok v => exact hx
      | error e =>
        exact quiet_safe Open.stable
          (Prog.Uses.bind (Prog.Uses.lift _) fun _ => Prog.Uses.pure none) hx
    refine first.mono fun x w' hx => ?_
    cases x with
    | error e => exact hx
    | ok v =>
      cases v with
      | some v => exact hx
      | none =>
        refine Safe.bind ((quiet_safe Open.stable (Prog.Uses.call ⟨rfl, rfl⟩) hx).mono ?_)
        intro x w'' hx
        cases x with
        | error e => exact hx
        | ok u => exact ih (fun hc => by rw [hns] at hc; cases hc) (back hx)

/-! ## Settling and recording -/

/-- The tool is registered under its name. -/
theorem oneShot_of_readOnly (hd : cfg.tool name = some d) (h : readOnly d = true) :
    oneShot cfg name = false := by
  simp [oneShot, hd, h]

/-- `except BaseException`: whatever raises, the reservation is settled. -/
theorem settling_safe {α : Type} {Q : Except Exn α → World V → Prop} {p : Task V α}
    (hd : cfg.tool name = some d)
    (hp : ExecSafe cfg live strict t (fun x w' => match x with
      | .ok a => Q (.ok a) w'
      | .error _ =>
        Phase cfg t context.idempotencyKey (Open strict) (oneShot cfg name = false) w') p w)
    (hQ : ∀ e w', Resolved live t w' → Q (.error e) w') :
    ExecSafe cfg live strict t Q (settling cfg d context p) w := by
  refine Safe.handle (hp.mono fun x w' hx => ?_)
  cases x with
  | ok a => exact hx
  | error e =>
    have hf : (!readOnly d) = false → oneShot cfg name = false :=
      fun h => oneShot_of_readOnly hd (by simpa using h)
    refine Safe.bind ((fail_safe e.typeName hf hx).mono fun y w'' hy => ?_)
    cases y <;> exact hQ _ _ hy

theorem checkOutput_uses {v : V} : (checkOutput cfg d name context v).Uses Quiet :=
  Prog.Uses.bind (Prog.Uses.lift _) fun _ =>
    Prog.Uses.bind (Prog.Uses.call ⟨rfl, rfl⟩) fun _ =>
      Prog.Uses.bind (Prog.Uses.lift _) fun _ =>
        Prog.Uses.bind (Prog.Uses.raiseIf _ _) fun _ => Prog.Uses.pure _

/-- The cache key of the tool call, if it needs one, can be built. -/
def KeyOk (cfg : Config V) (d : ToolDefinition V) (context : ToolContext) : Prop :=
  ∀ policies, cachePolicies cfg d = some policies →
    (CacheService.policy policies "tool_results").enabled = true →
    ∃ s, CacheService.scopeMaterial (cacheContext context)
      (CacheService.policy policies "tool_results").scope = .ok s

theorem key_ok {lib : Lib V} {policyName ns : String} {material : V} {c : CacheContext}
    {p : CachePolicy} {s : String} (h : CacheService.scopeMaterial c p.scope = .ok s) :
    ∃ k, CacheService.key lib policyName ns material c p = .ok k := by
  simp only [CacheService.key, h]
  exact ⟨_, rfl⟩

theorem store_safe {G : World V → Prop} (hG : (reservations cfg live strict).Stable t G)
    {k encoded : String} {ttl : Nat} {tags : List String} (hw : G w) :
    ExecSafe cfg live strict t (fun x w' => G w' ∧ (strict → ∃ u, x = .ok u))
      (CacheService.store k encoded ttl tags) w := by
  refine Safe.handle (Safe.bind (Safe.call fun w₁ hr hv a ha r w₂ hact => ?_))
  obtain ⟨hv', hl'⟩ := keeps_quiet rfl rfl G false w₁ a r w₂ hv (hG _ _ hr hw) ha hact
  have hG' : G w₂ := hG _ _ (hl' t) (hG _ _ hr hw)
  refine ⟨hv', fun t' _ => hl' t', ?_⟩
  cases r with
  | ok u => exact ⟨hG', fun _ => ⟨true, rfl⟩⟩
  | error e =>
    dsimp only
    split
    · exact ⟨hG', fun _ => ⟨false, rfl⟩⟩
    · rename_i he
      refine ⟨hG', fun hst => ?_⟩
      rcases ha.2 hst with hc | hc
      · obtain ⟨c, hc⟩ := hc.act hact
        cases hc
      · obtain ⟨e', he', h⟩ := hc.act hact
        cases h; exact absurd he' he

/-- The cache write only raises when it is cancelled. -/
theorem cacheResult_safe {G : World V → Prop} (hG : (reservations cfg live strict).Stable t G)
    (hk : KeyOk cfg d context) {wrapped : ToolResult V} (hw : G w) :
    ExecSafe cfg live strict t (fun x w' => G w' ∧ (strict → ∃ u, x = .ok u))
      (cacheResult cfg d arguments context wrapped) w := by
  unfold cacheResult
  split
  · exact ⟨hw, fun _ => ⟨(), rfl⟩⟩
  · rename_i policies hp
    refine Safe.bind ?_
    have : ExecSafe cfg live strict t (fun x w' => G w' ∧ (strict → ∃ u, x = .ok u))
        (CacheService.setJson cfg.lib policies "tool_results" "tool.result"
          (cacheMaterial cfg d arguments) (cacheContext context) (cfg.lib.ofToolResult wrapped)
          [s!"tool:{d.name}:{d.version}"]) w := by
      unfold CacheService.setJson
      dsimp only
      split
      · rename_i hen
        split
        · exact ⟨hw, fun _ => ⟨false, rfl⟩⟩
        · obtain ⟨s, hs⟩ := hk policies hp hen
          obtain ⟨k, hk⟩ : ∃ k, CacheService.key cfg.lib "tool_results" "tool.result"
              (cacheMaterial cfg d arguments) _ _ = .ok k := key_ok hs
          rw [hk]
          exact Safe.bind (store_safe hG hw)
      · exact ⟨hw, fun _ => ⟨false, rfl⟩⟩
    refine this.mono fun x w' hx => ?_
    cases x with
    | ok b => exact ⟨hx.1, fun _ => ⟨(), rfl⟩⟩
    | error e => exact ⟨hx.1, fun hst => by obtain ⟨u, hu⟩ := hx.2 hst; cases hu⟩

/-- From the handler's result to the recorded one. -/
theorem finish_safe (hk : KeyOk cfg d context) {v : V}
    (h : Phase cfg t context.idempotencyKey (Open strict) (oneShot cfg name = false) w) :
    ExecSafe cfg live strict t (fun x w' => match x with
      | .ok _ => Phase cfg t context.idempotencyKey (· = .completed) (oneShot cfg name = false) w'
      | .error _ =>
        Phase cfg t context.idempotencyKey (Open strict) (oneShot cfg name = false) w')
      (finish cfg d name arguments context v) w := by
  refine Safe.bind ((quiet_safe Open.stable checkOutput_uses h).mono fun x w₁ h₁ => ?_)
  cases x with
  | error e => exact h₁
  | ok result =>
    refine Safe.bind ((complete_safe _ h₁).mono fun x w₂ h₂ => ?_)
    cases x with
    | error e =>
      rcases h₂.2 with h' | ⟨h', hns⟩
      · exact h'
      · exact h'.weaken (fun s hs => Or.inr ⟨hns rfl, hs⟩) id
    | ok u =>
      refine Safe.bind ((cacheResult_safe (Phase.stable (by rintro s rfl; decide)) hk h₂).mono ?_)
      intro x w₃ h₃
      cases x with
      | ok u => exact h₃.1
      | error e =>
        refine h₃.1.weaken (fun s hs => Or.inr ⟨fun hst => ?_, hs⟩) id
        obtain ⟨u, hu⟩ := h₃.2 hst
        cases hu

/-- The end of a call that had reserved its key. -/
theorem invoke_safe (hd : cfg.tool name = some d) (hk : KeyOk cfg d context)
    (h : Phase cfg t context.idempotencyKey (Open strict) True w) :
    ExecSafe cfg live strict t (fun _ => Resolved live t)
      (invoke cfg d name arguments context) w := by
  refine Safe.bind (settling_safe hd ((attempts_safe (fun hone => ?_) h).mono ?_) ?_)
  · simp only [oneShot, hd, Bool.and_eq_true, decide_eq_true_eq] at hone
    rw [if_pos hone.1]
  · intro x w₁ h₁
    cases x with
    | error e => exact h₁
    | ok v =>
      refine settling_safe hd ((finish_safe hk h₁).mono fun x w₂ h₂ => ?_) fun _ _ h => h
      cases x with
      | ok r => exact h₂.resolved (by rintro s rfl; decide)
      | error e => exact h₂
  · exact fun _ _ h => h

/-! ## The cache lookup and the semaphore -/

theorem lookup_safe {G : World V → Prop} (hG : (reservations cfg live strict).Stable t G)
    {k : String} (hw : G w) :
    ExecSafe cfg live strict t (fun x w' => G w' ∧ (live → ∃ u, x = .ok u ∧
      ∀ v, u = some v → (cfg.lib.toToolResult v).isSome = true)) (CacheService.lookup cfg.lib k) w := by
  refine Safe.handle (Safe.bind (Safe.call fun w₁ hr hv a ha r w₂ hact => ?_))
  obtain ⟨hv', hl'⟩ := keeps_quiet rfl rfl G false w₁ a r w₂ hv (hG _ _ hr hw) ha hact
  have hG' : G w₂ := hG _ _ (hl' t) (hG _ _ hr hw)
  refine ⟨hv', fun t' _ => hl' t', ?_⟩
  have caught : ∀ e : Exn, (live → e.isException = true) →
      ExecSafe cfg live strict t (fun x w' => G w' ∧ (live → ∃ u, x = .ok u ∧
        ∀ v, u = some v → (cfg.lib.toToolResult v).isSome = true))
        (if e.isException then pure none else throw e) w₂ := by
    intro e he
    split
    · exact ⟨hG', fun _ => ⟨none, rfl, nofun⟩⟩
    · rename_i hne; exact ⟨hG', fun hlive => absurd (he hlive) hne⟩
  cases r with
  | error e =>
    refine caught e fun hlive => ?_
    rcases (ha.1 hlive).2 with hc | ⟨x, rfl, -⟩
    · obtain ⟨e', he', h⟩ := hc.act hact
      cases h; exact he'
    · cases hact
  | ok x =>
    cases x with
    | none => exact ⟨hG', fun _ => ⟨none, rfl, nofun⟩⟩
    | some encoded =>
      dsimp only
      split
      · rename_i v hload
        refine ⟨hG', fun hlive => ⟨_, rfl, fun v' hv' => ?_⟩⟩
        split at hv'
        · cases hv'
        · rename_i hnone
          cases hv'
          rcases (ha.1 hlive).2 with hc | ⟨x, rfl, hx⟩
          · obtain ⟨e, -, h⟩ := hc.act hact
            cases h
          · cases hact
            exact hx encoded v rfl hload (by simpa using hnone)
      · exact caught _ fun _ => rfl

/-- The lookup of a cached result, in the environment of `live`, does not raise. -/
theorem cached_safe (hlive : live → KeyOk cfg d context)
    (h : Phase cfg t context.idempotencyKey (Open strict) True w) :
    ExecSafe cfg live strict t (fun x w' => match x with
      | .ok _ => Phase cfg t context.idempotencyKey (Open strict) True w' ∧ KeyOk cfg d context
      | .error _ => Resolved live t w') (cached cfg d arguments context) w := by
  unfold cached
  split
  · rename_i hp
    exact ⟨h, fun policies hp' => by rw [hp] at hp'; cases hp'⟩
  · rename_i policies hp
    refine Safe.bind ?_
    unfold CacheService.getJson
    dsimp only
    split
    · rename_i hen
      cases hs : CacheService.scopeMaterial (cacheContext context)
          (CacheService.policy policies "tool_results").scope with
      | error e =>
        have he : CacheService.key cfg.lib "tool_results" "tool.result" (cacheMaterial cfg d arguments)
            (cacheContext context) (CacheService.policy policies "tool_results") = .error e := by
          simp only [CacheService.key, hs]; rfl
        rw [he]
        intro hl
        obtain ⟨s, hs'⟩ := hlive hl policies hp hen
        rw [hs] at hs'; cases hs'
      | ok s =>
        obtain ⟨k, hk⟩ : ∃ k, CacheService.key cfg.lib "tool_results" "tool.result"
            (cacheMaterial cfg d arguments) _ _ = .ok k := key_ok hs
        have hkey : KeyOk cfg d context := by
          intro policies' hp' _
          rw [hp] at hp'; cases hp'
          exact ⟨s, hs⟩
        rw [hk]
        refine Safe.bind ((lookup_safe Open.stable h).mono fun x w' hx => ?_)
        cases x with
        | error e =>
          intro hl
          obtain ⟨u, hu, -⟩ := hx.2 hl
          cases hu
        | ok found =>
          cases found with
          | none => exact ⟨hx.1, hkey⟩
          | some v =>
            dsimp only
            unfold cacheHit
            split
            · exact ⟨hx.1, hkey⟩
            · rename_i hn
              intro hl
              obtain ⟨u, hu, hv⟩ := hx.2 hl
              cases hu
              have := hv v rfl
              rw [hn] at this; cases this
    · rename_i hen
      refine ⟨h, fun policies' hp' hen' => ?_⟩
      rw [hp] at hp'; cases hp'
      exact absurd hen' hen

theorem guarded_safe (hd : cfg.tool name = some d) (hk : KeyOk cfg d context)
    (h : Phase cfg t context.idempotencyKey (Open strict) True w) :
    ExecSafe cfg live strict t (fun _ => Resolved live t)
      (guarded cfg d name arguments context) w := by
  refine Safe.bind (Safe.call fun w₁ hr hv a ha r w₂ hact => ?_)
  have h₁ := Open.stable _ _ hr h
  obtain ⟨hv', hl'⟩ := keeps_quiet rfl rfl (fun _ => True) false w₁ a r w₂ hv trivial ha hact
  refine ⟨hv', fun t' _ => hl' t', ?_⟩
  cases r with
  | error e =>
    intro hl
    obtain ⟨c, hc⟩ := ((ha.1 hl).2 : Completes a).act hact
    simp only [World.effect] at hc
    split at hc <;> cases hc
  | ok u =>
    refine Safe.ensure ((invoke_safe hd hk (Open.stable _ _ (hl' t) h₁)).mono fun x w₃ h₃ => ?_)
    refine (quiet_safe Resolved.stable (Prog.Uses.call ⟨rfl, rfl⟩) h₃).mono fun y w₄ h₄ => ?_
    cases y <;> exact h₄

theorem executeReserved_safe (hd : cfg.tool name = some d)
    (hlive : live → KeyOk cfg d context)
    (h : Phase cfg t context.idempotencyKey (Open strict) True w) :
    ExecSafe cfg live strict t (fun _ => Resolved live t)
      (executeReserved cfg d name arguments context) w := by
  refine Safe.bind ((cached_safe hlive h).mono fun x w₁ h₁ => ?_)
  cases x with
  | error e => exact h₁
  | ok hit =>
    cases hit with
    | none => exact guarded_safe hd h₁.2 h₁.1
    | some wrapped =>
      refine Safe.bind ((complete_safe wrapped h₁.1).mono fun x w₂ h₂ => ?_)
      cases x with
      | ok u => exact h₂.resolved (by rintro s rfl; decide)
      | error e => exact fun hl => absurd hl h₂.1

/-! ## The reservation -/

/-- The operation reserves `k` for `t` if the key is absent or FAILED; `reserved` tells
    from its answer whether it did. -/
def Reserves (cfg : Config V) (t : Nat) (k : String) (o : Op V) (reserved : o.Resp → Bool) :
    Prop :=
  ∀ (w : World V) c r (w' : World V), (∀ row, w.executions.get k = some row → RowOk k row) →
    w.effect cfg t o c = some (r, w') → ∃ u, r = .ok u ∧
      (reserved u = false ∧ w'.executions = w.executions ∨
       reserved u = true ∧ ∃ row, w'.executions = w.executions.set k row ∧ RowOk k row ∧
        row.owner = t ∧ row.status = .started ∧
        ∀ row₀, w.executions.get k = some row₀ → row₀.status = .failed)

/-- What the call holds after an attempt to reserve `k`. -/
def Attempted (cfg : Config V) (strict : Prop) (t : Nat) (k : String) (reserved : Bool)
    (w : World V) : Prop :=
  if reserved then Phase cfg t k (Open strict) True w else Outside t w

theorem reserved_ok (toolName : String) :
    RowOk context.idempotencyKey
      (.reserved t (ToolExecutionRecord.reserve context toolName) : Row V) :=
  ⟨rfl, rfl, nofun⟩

theorem reserves_toolBegin (toolName : String) :
    Reserves cfg t context.idempotencyKey (.toolBegin context toolName) (·.2) := by
  intro w c r w' hok h
  simp only [World.effect, Executions.beginMem] at h
  split at h
  · rename_i row hrow
    split at h
    · cases h; exact ⟨_, rfl, Or.inl ⟨rfl, rfl⟩⟩
    · rename_i hst
      cases h
      refine ⟨_, rfl, Or.inr ⟨rfl, _, rfl, reserved_ok toolName, rfl, rfl, fun row₀ h₀ => ?_⟩⟩
      rw [hrow] at h₀; cases h₀
      rw [(hok row hrow).status]; exact not_not.1 hst
  · rename_i hrow
    cases h
    refine ⟨_, rfl, Or.inr ⟨rfl, _, rfl, reserved_ok toolName, rfl, rfl, fun row₀ h₀ => ?_⟩⟩
    rw [hrow] at h₀; cases h₀

theorem reserves_pgInsert (toolName : String) :
    Reserves cfg t context.idempotencyKey
      (.pgInsert (ToolExecutionRecord.reserve context toolName)) id := by
  intro w c r w' hok h
  simp only [World.effect, Executions.insert] at h
  split at h
  · cases h; exact ⟨_, rfl, Or.inl ⟨rfl, rfl⟩⟩
  · rename_i hrow
    cases h
    refine ⟨_, rfl, Or.inr ⟨rfl, _, rfl, reserved_ok toolName, rfl, rfl, fun row₀ h₀ => ?_⟩⟩
    rw [show w.executions.get context.idempotencyKey = none from hrow] at h₀; cases h₀

theorem reserves_pgRestart (toolName : String) :
    Reserves cfg t context.idempotencyKey
      (.pgRestart (ToolExecutionRecord.reserve context toolName) context.idempotencyKey) id := by
  intro w c r w' hok h
  simp only [World.effect, Executions.restart] at h
  split at h
  · rename_i row hrow
    split at h
    · rename_i hst
      cases h
      refine ⟨_, rfl, Or.inr ⟨rfl, _, rfl, ⟨rfl, rfl, by intros; contradiction⟩, rfl, rfl,
        fun row₀ h₀ => ?_⟩⟩
      rw [hrow] at h₀; cases h₀; exact hst
    · cases h; exact ⟨_, rfl, Or.inl ⟨rfl, rfl⟩⟩
  · cases h; exact ⟨_, rfl, Or.inl ⟨rfl, rfl⟩⟩

theorem reserve_safe {k : String} {o : Op V} {reserved : o.Resp → Bool}
    (ho : Reserves cfg t k o reserved) (hh : o.isHandler = false)
    (hl : ∀ a : Act cfg.sem.Ans Exn o, storeSucceeds o a → Completes a) (hw : Outside t w) :
    ExecSafe cfg live strict t (fun x w' => match x with
      | .ok u => Attempted cfg strict t k (reserved u) w'
      | .error _ => Resolved live t w') (await o) w := by
  refine Safe.call fun w₁ hr hv a ha r w₂ hact => ?_
  have h₁ := Outside.stable _ _ hr hw
  have fr := Config.act_frame hact
  have idle : w₂.executions = w₁.executions →
      Ledger cfg live w₂ ∧ (∀ t', t' ≠ t → Leaves cfg strict t' w₁ w₂) ∧ Outside t w₂ := by
    intro he
    exact ⟨hv.of_eq he (fr.invocations hh) fr.done,
      fun _ _ => Leaves.of_eq he (fr.invocations hh) fr.done,
      fun k row h => h₁.none k row (he ▸ h), fr.done ▸ h₁.running⟩
  have eff : ∀ {C} {c : o.Choice} {r₁}, (w₁.flagged C).effect cfg t o c = some (r₁, w₂) →
      Ledger cfg live w₂ ∧ (∀ t', t' ≠ t → Leaves cfg strict t' w₁ w₂) ∧
        ∃ u, r₁ = .ok u ∧ Attempted cfg strict t k (reserved u) w₂ := by
    intro C c r₁ hc
    obtain ⟨u, rfl, ⟨hres, he⟩ | ⟨hres, row, he, hok, hown, hs, hold⟩⟩ :=
      ho (w₁.flagged C) c r₁ w₂ (fun row h => hv.rows k row h) hc
    · obtain ⟨h₂, h₃, h₄⟩ := idle he
      refine ⟨h₂, h₃, u, rfl, ?_⟩
      rw [Attempted, hres]; exact h₄
    · have h0 : w₁.calls cfg k = 0 := by
        by_contra hne
        obtain ⟨row₀, hrow₀, hnf⟩ := hv.kept k hne
        exact hnf (hold row₀ hrow₀)
      have hopen : strict → ∀ row₀, w₁.executions.get k = some row₀ → row₀.status ≠ .completed :=
        fun _ row₀ h hc => by rw [hold row₀ h] at hc; cases hc
      obtain ⟨h₂, h₃⟩ := hv.write he (fr.invocations hh) fr.done hok hown
        (fun row₀ h => Or.inl (hold row₀ h)) hopen
        (fun _ => h0) (fun _ => h₁.running)
      refine ⟨h₂, h₃, u, rfl, ?_⟩
      rw [Attempted, hres]
      refine ⟨⟨row, by rw [he]; exact Dict.get_set_self .., hown, Or.inl hs⟩, fun k' row' h' ho' => ?_,
        fr.done ▸ h₁.running, fun _ => (World.calls_congr (fr.invocations hh) k).trans h0⟩
      by_contra hne
      rw [he] at h'
      exact h₁.none k' row' ((Dict.get_set_ne hne).symm.trans h') ho'
  obtain ⟨C, ⟨c, hc⟩ | ⟨e, rfl, -, hw⟩⟩ := Config.act_cases hact
  · obtain ⟨h₂, h₃, u, rfl, h₄⟩ := eff hc
    exact ⟨h₂, h₃, h₄⟩
  · have hres : Resolved live t w₂ := by
      intro hlive
      obtain ⟨c, hc⟩ := (hl a (ha.1 hlive).1).act hact
      obtain ⟨-, -, u, hu, -⟩ := eff (C := w₁.cancelRequested) hc
      cases hu
    have touch : (w₁.flagged C).touch t o = w₁.flagged C := by cases o <;> first | rfl | cases hh
    rw [touch, ← or_assoc, or_self] at hw
    rcases hw with rfl | ⟨c, r', hc⟩
    · obtain ⟨h₂, h₃, -⟩ := idle rfl
      exact ⟨h₂, h₃, hres⟩
    · obtain ⟨h₂, h₃, -⟩ := eff hc
      exact ⟨h₂, h₃, hres⟩

theorem begin_safe {toolName : String} (hw : Outside t w) :
    ExecSafe cfg live strict t (fun x w' => match x with
      | .ok u => Attempted cfg strict t context.idempotencyKey u.2 w'
      | .error _ => Resolved live t w') (ToolExecutionStore.begin_ cfg context toolName) w := by
  unfold ToolExecutionStore.begin_
  split
  · refine (reserve_safe (reserves_toolBegin toolName) rfl (fun _ h => h) hw).mono fun x w' h => ?_
    cases x <;> exact h
  · refine Safe.bind ((reserve_safe (reserves_pgInsert toolName) rfl (fun _ h => h) hw).mono ?_)
    intro x w₁ h₁
    cases x with
    | error e => exact h₁
    | ok inserted =>
      cases inserted with
      | true => exact h₁
      | false =>
        have h₁ : Outside t w₁ := h₁
        refine Safe.bind ((quiet_safe Outside.stable (Prog.Uses.call ⟨rfl, rfl⟩) h₁).mono ?_)
        intro x w₂ h₂
        cases x with
        | error e => exact h₂.resolved
        | ok row =>
          cases row with
          | none => exact h₂.resolved
          | some current =>
            dsimp only
            split
            · refine Safe.bind
                ((reserve_safe (reserves_pgRestart toolName) rfl (fun _ h => h) h₂).mono ?_)
              intro x w₃ h₃
              cases x with
              | error e => exact h₃
              | ok changed => cases changed <;> exact h₃
            · exact h₂

/-- **Every call of `execute` keeps the reservation contract.** -/
theorem execute_safe (hlive : live → Scoped cfg name context) (hw : Outside t w) :
    ExecSafe cfg live strict t (fun _ => Resolved live t)
      (execute cfg name arguments context) w := by
  unfold execute
  cases hd : cfg.tool name with
  | none =>
    simp only [toolsGet, hd]
    exact hw.resolved
  | some d =>
    simp only [toolsGet, hd]
    refine Safe.bind (Safe.lift ?_)
    refine Safe.bind (Safe.lift ?_)
    cases admitted cfg d name arguments context with
    | error e => exact hw.resolved
    | ok u =>
      refine Safe.bind ((quiet_safe Outside.stable (Prog.Uses.call ⟨rfl, rfl⟩) hw).mono ?_)
      intro x w₁ h₁
      cases x with
      | error e => exact h₁.resolved
      | ok decision =>
        refine Safe.bind (Safe.raiseIf (fun _ => h₁.resolved) fun _ => ?_)
        refine Safe.bind ((begin_safe h₁).mono fun x w₂ h₂ => ?_)
        cases x with
        | error e => exact h₂
        | ok u =>
          obtain ⟨record, reserved⟩ := u
          cases reserved with
          | true =>
            refine executeReserved_safe hd (fun hl policies hp hen => ?_) h₂
            exact hlive hl d policies hd hp hen
          | false => exact Safe.lift (Outside.resolved h₂)

/-! ## The operations a call can reach -/

/-- A program of these operations, whose own exceptions are failures. -/
abbrev CalmIn {α : Type} (P : Op V → Prop) (p : Task V α) : Prop :=
  Prog.Calm P (fun e => e.isFailure = true) p

/-- The operations of a call that has reserved its key. -/
def reservedOp (name : String) (arguments : Dict String V) (context : ToolContext) : Op V → Prop
  | .policyEvaluate point _ _ => point ≠ .planTool
  | .cacheGet _ | .cacheSet .. | .acquire .. | .release _ | .sleep _ => True
  | .toolComplete key _ => key = context.idempotencyKey
  | .toolFail key _ _ => key = context.idempotencyKey
  | .pgGet _ | .pgUpdate _ => True
  | .handler n a c => n = name ∧ a = arguments ∧ c = context
  | _ => False

/-- The operations of `execute`. -/
def executeOp (name : String) (arguments : Dict String V) (context : ToolContext) (o : Op V) :
    Prop :=
  reservedOp name arguments context o ∨ match o with
    | .toolBegin .. | .pgInsert _ | .pgSelect .. | .pgRestart .. => True
    | _ => False

theorem executeOp_plansTool {name : String} {arguments : Dict String V} {context : ToolContext}
    {o : Op V} (ho : executeOp name arguments context o) : o.plansTool = false := by
  cases o with
  | policyEvaluate point _ _ =>
    rcases ho with ho | ho
    · cases point <;> first | rfl | exact absurd rfl ho
    · exact ho.elim
  | _ => rfl

section
open Prog

variable {P : Op V → Prop} {policies : Dict String CachePolicy} {policyName ns : String}
  {material : V} {cacheCtx : CacheContext}

/-- A computation that raises does so at its first step or after it. -/
theorem bind_eq_error {α β : Type} {x : Except Exn α} {f : α → Except Exn β} {e : Exn}
    (h : x >>= f = .error e) : x = .error e ∨ ∃ a, f a = .error e := by
  cases x with
  | ok a => exact Or.inr ⟨a, h⟩
  | error e' => cases h; exact Or.inl rfl

theorem required_eq_error {part : Option String} {m : String} {e : Exn}
    (h : CacheService.required part m = .error e) : e.isFailure = true := by
  unfold CacheService.required at h
  split at h
  · split at h <;> cases h
    rfl
  · cases h; rfl

theorem scopeMaterial_eq_error {scope : CacheScope} {e : Exn}
    (h : CacheService.scopeMaterial cacheCtx scope = .error e) : e.isFailure = true := by
  unfold CacheService.scopeMaterial at h
  -- each part of the scope is required or left out
  cases scope <;> simp only [reduceCtorEq, or_false, or_true, if_true, if_false] at h <;>
    repeat' first
      | exact required_eq_error h
      | contradiction
      | rcases bind_eq_error h with h | ⟨_, h⟩

theorem key_eq_error {p : CachePolicy} {e : Exn}
    (h : CacheService.key cfg.lib policyName ns material cacheCtx p = .error e) :
    e.isFailure = true := by
  rcases bind_eq_error h with h | ⟨_, h⟩
  · exact scopeMaterial_eq_error h
  · cases h

theorem lookup_calm {k : String} (hg : P (.cacheGet k)) :
    CalmIn P (CacheService.lookup cfg.lib k) := by
  refine Calm.handle (Calm.bind (Calm.call hg) fun encoded => ?_) fun e => ?_
  · cases encoded with
    | none => exact Calm.pure _
    | some e =>
      dsimp only
      split
      · exact Calm.pure _
      · exact Calm.throw rfl
  · split
    · exact Calm.pure _
    · exact Calm.throw (Or.inr rfl)

theorem getJson_calm (hg : ∀ k, P (.cacheGet k)) :
    CalmIn P (CacheService.getJson cfg.lib policies policyName ns material cacheCtx) := by
  unfold CacheService.getJson
  dsimp only
  split
  · exact Calm.bind (Calm.lift fun _ => key_eq_error) fun k => lookup_calm (hg k)
  · exact Calm.pure _

theorem setJson_calm (hs : ∀ k v n tags, P (.cacheSet k v n tags)) {v : V} {tags : List String} :
    CalmIn P (CacheService.setJson cfg.lib policies policyName ns material cacheCtx v tags) := by
  unfold CacheService.setJson
  dsimp only
  split
  · split
    · exact Calm.pure _
    · refine Calm.bind (Calm.lift fun _ => key_eq_error) fun k => Calm.handle
        (Calm.bind (Calm.call (hs _ _ _ _)) fun _ => Calm.pure _) fun e => ?_
      split
      · exact Calm.pure _
      · exact Calm.throw (Or.inr rfl)
  · exact Calm.pure _

end

section
open Prog

theorem update_calm {P : Op V → Prop} {k : String}
    {f : ToolExecutionRecord V → ToolExecutionRecord V} (hg : ∀ k, P (.pgGet k))
    (hu : ∀ r, P (.pgUpdate r)) : CalmIn P (ToolExecutionStore.updatePostgres k f) :=
  Calm.bind (Calm.call (hg k)) fun row => by
    cases row with
    | none => exact Calm.throw rfl
    | some r => exact Calm.call (hu _)

theorem complete_calm {result : ToolResult V} :
    CalmIn (reservedOp name arguments context)
      (ToolExecutionStore.complete cfg context.idempotencyKey result) := by
  unfold ToolExecutionStore.complete
  split
  · exact Calm.call rfl
  · exact update_calm (fun _ => trivial) fun _ => trivial

theorem settling_calm {α : Type} {p : Task V α}
    (hp : CalmIn (reservedOp name arguments context) p) :
    CalmIn (reservedOp name arguments context) (settling cfg d context p) := by
  refine hp.handle fun e => Calm.bind (Calm.mono ?_ fun _ => Or.inl) fun _ => Calm.throw (Or.inr rfl)
  unfold ToolExecutionStore.fail
  split
  · exact Calm.call rfl
  · exact update_calm (fun _ => trivial) fun _ => trivial

/-- Another attempt, a failure, or the handler's own exception. -/
theorem handlerRaised_eq_error {last : Bool} {e e' : Exn}
    (h : handlerRaised name last e = .error e') : e'.isFailure = true ∨ e' = e := by
  cases e <;> cases last <;> cases h <;> first | exact Or.inl rfl | exact Or.inr rfl

theorem attempts_calm {attempt rest : Nat} :
    CalmIn (reservedOp name arguments context)
      (attempts d name arguments context attempt rest) := by
  induction rest generalizing attempt with
  | zero => exact (Calm.call ⟨rfl, rfl, rfl⟩).handle fun e =>
      Calm.bind (Calm.lift fun _ => handlerRaised_eq_error) fun _ => Calm.throw (Or.inr rfl)
  | succ rest ih =>
    refine Calm.bind (Calm.handle (Calm.bind (Calm.call ⟨rfl, rfl, rfl⟩) fun _ => Calm.pure _)
      fun e => Calm.bind (Calm.lift fun _ => handlerRaised_eq_error) fun _ => Calm.pure none)
      fun result => ?_
    cases result with
    | some v => exact Calm.pure v
    | none => exact Calm.bind (Calm.call trivial) fun _ => ih

theorem validate_eq_error {v : V} {schema : Dict String V} {message : String → String} {e : Exn}
    (h : ToolExecutor.validate cfg v schema message = .error e) : e.isFailure = true := by
  unfold ToolExecutor.validate at h
  split at h <;> cases h <;> rfl

theorem cacheResult_calm {wrapped : ToolResult V} :
    CalmIn (reservedOp name arguments context)
      (cacheResult cfg d arguments context wrapped) := by
  unfold cacheResult
  split
  · exact Calm.pure _
  · exact Calm.bind (setJson_calm fun _ _ _ _ => trivial) fun _ => Calm.pure _

theorem cacheHit_eq_error {v : V} {e : Exn} (h : cacheHit cfg v = .error e) :
    e.isFailure = true := by
  unfold cacheHit at h
  split at h <;> cases h
  rfl

theorem cached_calm :
    CalmIn (reservedOp name arguments context) (cached cfg d arguments context) := by
  unfold cached
  split
  · exact Calm.pure _
  · refine Calm.bind (getJson_calm fun _ => trivial) fun found => ?_
    cases found with
    | none => exact Calm.pure _
    | some v => exact Calm.bind (Calm.lift fun _ => cacheHit_eq_error) fun _ => Calm.pure _

theorem checkOutput_calm {v : V} :
    CalmIn (reservedOp name arguments context) (checkOutput cfg d name context v) := by
  refine Calm.bind (Calm.lift fun _ => validate_eq_error) fun _ => Calm.bind
    (Calm.call (show PolicyPoint.afterTool ≠ _ by decide)) fun decision => Calm.bind
      (Calm.lift fun e he => ?_) fun _ => Calm.bind (Calm.raiseIf rfl) fun _ => Calm.pure _
  have replaced : ∀ {x : V}, (do
      ToolExecutor.validate cfg x d.outputSchema
        fun m => s!"policy-transformed output from {name} is invalid: {m}"
      .ok x : Except Exn V) = .error e → e.isFailure = true := by
    intro x hx
    cases hv : ToolExecutor.validate cfg x d.outputSchema
      (fun m => s!"policy-transformed output from {name} is invalid: {m}") with
    | ok u => rw [hv] at hx; cases hx
    | error e' => rw [hv] at hx; cases hx; exact validate_eq_error hv
  cases h : decision.action <;> rw [h] at he <;> first
    | cases he; rfl
    | cases he
    | exact replaced he

theorem executeReserved_calm :
    CalmIn (reservedOp name arguments context)
      (executeReserved cfg d name arguments context) := by
  refine Calm.bind cached_calm fun hit => ?_
  cases hit with
  | some wrapped => exact Calm.bind complete_calm fun _ => Calm.pure _
  | none =>
    refine Calm.bind (Calm.call trivial) fun _ => Calm.ensure ?_ (Calm.call trivial)
    refine Calm.bind (settling_calm attempts_calm) fun v => settling_calm ?_
    exact Calm.bind checkOutput_calm fun result => Calm.bind complete_calm fun _ =>
      Calm.bind cacheResult_calm fun _ => Calm.pure _

theorem begin_calm {toolName : String} :
    CalmIn (executeOp name arguments context)
      (ToolExecutionStore.begin_ cfg context toolName) := by
  unfold ToolExecutionStore.begin_
  split
  · exact Calm.call (Or.inr trivial)
  · refine Calm.bind (Calm.call (Or.inr trivial)) fun inserted => ?_
    cases inserted with
    | true => exact Calm.pure _
    | false =>
      refine Calm.bind (Calm.call (Or.inr trivial)) fun row => ?_
      cases row with
      | none => exact Calm.throw rfl
      | some current =>
        dsimp only
        split
        · exact Calm.bind (Calm.call (Or.inr trivial)) fun _ => Calm.pure _
        · exact Calm.pure _

theorem admitted_eq_error {e : Exn} (h : admitted cfg d name arguments context = .error e) :
    e.isFailure = true := by
  unfold admitted at h
  dsimp only at h
  split at h
  · cases h; rfl
  · exact validate_eq_error h

theorem toolsGet_eq_error {e : Exn} (h : toolsGet cfg name = .error e) : e.isFailure = true := by
  unfold toolsGet at h
  split at h <;> cases h
  rfl

theorem replay_eq_error {record : ToolExecutionRecord V} {e : Exn}
    (h : replay name record = .error e) : e.isFailure = true := by
  unfold replay at h
  split at h <;> cases h
  rfl

/-- What follows the policy check of `execute`. -/
theorem executeAllowed_calm :
    CalmIn (executeOp name arguments context) (do
      let x ← ToolExecutionStore.begin_ cfg context name
      if x.2 then executeReserved cfg d name arguments context
      else Prog.lift (replay name x.1)) := by
  refine Calm.bind begin_calm fun x => ?_
  split
  · exact executeReserved_calm.mono_op fun _ h => Or.inl h
  · exact Calm.lift fun _ => replay_eq_error

/-- `execute` only reaches its own operations, and only its own handler; what it raises is a
    failure or comes from one of them. -/
theorem execute_calm :
    CalmIn (executeOp name arguments context) (execute cfg name arguments context) :=
  Calm.bind (Calm.lift fun _ => toolsGet_eq_error) fun _ =>
    Calm.bind (Calm.lift fun _ => admitted_eq_error) fun _ =>
      Calm.bind (Calm.call (Or.inl (show PolicyPoint.beforeTool ≠ _ by decide))) fun _ =>
        Calm.bind (Calm.raiseIf rfl) fun _ => executeAllowed_calm

end

end TracciaRuntime
