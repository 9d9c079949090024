/-
  The tool executor under any interleaving of its calls.

  `toolSys` lets calls of `execute` enter at any time, in any process and with
  any key, and lets them be cancelled, fail and crash.

  * `one_shot_at_most_once`: the handler of a tool that must not run twice runs
    at most once per key, and a recorded result is replayed;
  * `reservation_resolved`: when nothing strikes a call between its reservation
    and its handler, no reservation is left behind;
  * `completed_forever`: when nothing strikes a call after its result is
    recorded, the record is final.
-/
import TracciaRuntime.Proof.Executor
import TracciaRuntime.Async.Play

namespace TracciaRuntime

open Py Async ToolExecutor

variable {V : Type}

/-- The calls of `execute`, in the environment `allow`, with or without crashes, and for the
    tools and contexts that `entry` admits. -/
def toolSys (cfg : Config V) (allow : Allow cfg.sem.Ans Exn (World V)) (crash : Prop)
    (entry : String → ToolContext → Prop) :
    Sys (Op.Resp (V := V)) Exn (World V) (ToolResult V) where
  toSem := cfg.sem
  allow := allow
  -- a call has a number of its own
  enter w t p w' := Outside t w ∧ w' = w ∧ ∃ name arguments context,
    p = execute cfg name arguments context ∧ entry name context
  fin t _ w := { w with done := insert t w.done }
  kill w t w' := crash ∧ w' = { w with done := insert t w.done }

/-- Calls of any kind in any environment. -/
abbrev anyCalls (cfg : Config V) := toolSys cfg (fun _ _ _ _ => True) True fun _ _ => True

/-- Calls whose execution store works. -/
abbrev storedCalls (cfg : Config V) :=
  toolSys cfg (fun _ _ o a => storeSucceeds o a) False fun _ _ => True

/-- Calls whose execution store works and that nothing strikes between the reservation and
    the handler. -/
abbrev undisturbedCalls (cfg : Config V) :=
  toolSys cfg (fun _ _ o a => storeSucceeds o a ∧ undisturbed o a) False (Scoped cfg)

/-- Calls that nothing strikes once their result is recorded. -/
abbrev lastingCalls (cfg : Config V) :=
  toolSys cfg (fun _ _ o a => lasting o a) True fun _ _ => True

/-- No tool has been called. -/
def Idle (w : World V) : Prop := w.executions = [] ∧ w.invocations = []

/-- The system before its first call. -/
def idlePool (w : World V) : Pool (Op.Resp (V := V)) Exn (World V) (ToolResult V) :=
  ⟨w, fun _ => none⟩

section
variable {cfg : Config V} {live strict : Prop} {w : World V}
  {allow : Allow cfg.sem.Ans Exn (World V)} {crash : Prop} {entry : String → ToolContext → Prop}

theorem Idle.ledger (h : Idle w) : Ledger cfg live w := by
  have hc : ∀ k, w.calls cfg k = 0 := fun k => by simp [World.calls, World.invocationsOf, h.2]
  refine ⟨fun k row hk => ?_, fun k => ?_, fun k hk => absurd (hc k) hk, fun _ k row hk => ?_⟩
  · rw [h.1] at hk; cases hk
  · rw [hc]; exact Nat.zero_le 1
  · rw [h.1] at hk; cases hk

theorem Ledger.finish (h : Ledger cfg live w) {t : Nat} (hr : Resolved live t w) :
    Ledger cfg live { w with done := insert t w.done } := by
  refine ⟨h.rows, h.once, h.kept, fun hl k row hk hs hd => ?_⟩
  rcases Finset.mem_insert.1 hd with ho | hd
  · exact hr hl k row hk ho hs
  · exact h.live hl k row hk hs hd

theorem Leaves.finish {t t' : Nat} (ht : t' ≠ t) :
    Leaves cfg strict t' w { w with done := insert t w.done } :=
  ⟨fun _ _ h _ _ => ⟨h, rfl⟩, fun _ _ h _ => h,
    fun h => (Finset.mem_insert.1 h).resolve_left ht, fun _ _ _ h _ => ⟨h, rfl⟩⟩

/-- The environment, the crashes and the calls that `live` and `strict` ask for. -/
structure Tame (cfg : Config V) (allow : Allow cfg.sem.Ans Exn (World V)) (crash : Prop)
    (entry : String → ToolContext → Prop) (live strict : Prop) : Prop where
  allow : ∀ t w o a, allow t w o a → executeAllow cfg live strict t w o a
  crash : crash → ¬ live
  entry : live → ∀ name context, entry name context → Scoped cfg name context

theorem toolSys_respects (h : Tame cfg allow crash entry live strict) :
    (toolSys cfg allow crash entry).Respects (reservations cfg live strict)
      (fun t _ => Resolved live t) where
  enter := by
    rintro w t p w' hv ⟨ho, rfl, name, arguments, context, rfl, he⟩
    refine ⟨hv, fun t' _ => (reservations cfg live strict).refl t' w', ?_⟩
    exact (execute_safe (fun hl => h.entry hl name context he) ho).tame h.allow
  fin t x w hv hr := ⟨hv.finish hr, fun t' ht => Leaves.finish ht⟩
  kill := by
    rintro w t w' hv ⟨hc, rfl⟩
    exact ⟨hv.finish fun hl => absurd hl (h.crash hc), fun t' ht => Leaves.finish ht⟩

theorem idle_safe (h : Idle w) :
    (toolSys cfg allow crash entry).AllSafe (reservations cfg live strict)
      (fun t _ => Resolved live t) (idlePool w) :=
  ⟨h.ledger, fun _ _ hp => by cases hp⟩

/-- In every interleaving the ledger is in order. -/
theorem ledger_reach (ht : Tame cfg allow crash entry live strict) (h : Idle w) {P : Pool _ _ _ _}
    (hP : (toolSys cfg allow crash entry).Reach (idlePool w) P) : Ledger cfg live P.world :=
  (Sys.safe_reach (toolSys_respects ht) (idle_safe h) hP).valid

end

theorem anyCalls_tame (cfg : Config V) :
    Tame cfg (fun _ _ _ _ => True) True (fun _ _ => True) False False :=
  ⟨fun _ _ _ _ _ => ⟨False.elim, False.elim⟩, fun _ => id, False.elim⟩

theorem undisturbedCalls_tame (cfg : Config V) :
    Tame cfg (fun _ _ o a => storeSucceeds o a ∧ undisturbed o a) False (Scoped cfg) True False :=
  ⟨fun _ _ _ _ h => ⟨fun _ => h, False.elim⟩, False.elim, fun _ _ _ h => h⟩

theorem lastingCalls_tame (cfg : Config V) :
    Tame cfg (fun _ _ o a => lasting o a) True (fun _ _ => True) False True :=
  ⟨fun _ _ _ _ h => ⟨False.elim, fun _ => h⟩, fun _ => id, False.elim⟩

/-! ## Recorded results are replayed -/

/-- At the statement that finds a COMPLETED record, the call returns its result. -/
def ReplayNode : (o : Op V) → (Except Exn o.Resp → Task V (ToolResult V)) → Prop
  | .toolBegin .., k => ∀ record r, record.status = .completed → record.result = some r →
      k (.ok (record, false)) = .pure r
  | .pgSelect .., k => ∀ record r, record.status = .completed → record.result = some r →
      k (.ok (some record)) = .pure r
  | _, _ => True

/-- The same at every point of the program. -/
def Replays : Task V (ToolResult V) → Prop
  | .pure _ => True
  | .raise _ => True
  | .await _ o k => ReplayNode o k ∧ ∀ r, Replays (k r)

/-- The operations that do not look for a record. -/
def notLookup : Op V → Prop
  | .toolBegin .. | .pgSelect .. => False
  | _ => True

theorem replayNode_of_notLookup {o : Op V} {k : Except Exn o.Resp → Task V (ToolResult V)}
    (h : notLookup o) : ReplayNode o k := by
  cases o <;> trivial

theorem Replays.bind {α : Type} {p : Task V α} {f : α → Task V (ToolResult V)}
    (hp : p.Uses notLookup) (hf : ∀ a, Replays (f a)) : Replays (p >>= f) := by
  induction p with
  | pure a => exact hf a
  | raise e => trivial
  | await b o k ih => exact ⟨replayNode_of_notLookup hp.1, fun r => ih r (hp.2 r)⟩

theorem Replays.of_uses {p : Task V (ToolResult V)} (hp : p.Uses notLookup) : Replays p := by
  induction p with
  | pure a => trivial
  | raise e => trivial
  | await b o k ih => exact ⟨replayNode_of_notLookup hp.1, fun r => ih r (hp.2 r)⟩

theorem replay_completed {name : String} {record : ToolExecutionRecord V} {r : ToolResult V}
    (h : record.status = .completed) (hr : record.result = some r) :
    replay name record = .ok r := by
  simp only [replay, h, hr]

theorem execute_replays (cfg : Config V) (name : String) (arguments : Dict String V)
    (context : ToolContext) : Replays (execute cfg name arguments context) := by
  refine Replays.bind (Prog.Uses.lift _) fun d => Replays.bind (Prog.Uses.lift _) fun _ =>
    Replays.bind (Prog.Uses.call trivial) fun _ => Replays.bind (Prog.Uses.raiseIf _ _) fun _ => ?_
  -- what follows `begin`
  have after : ∀ x : ToolExecutionRecord V × Bool,
      Replays (if x.2 then executeReserved cfg d name arguments context
        else Prog.lift (replay name x.1)) := by
    intro x
    split
    · refine Replays.of_uses (executeReserved_calm.uses.mono fun o h => ?_)
      cases o <;> trivial
    · exact Replays.of_uses (Prog.Uses.lift _)
  unfold ToolExecutionStore.begin_
  split
  · refine ⟨fun record r hs hr => ?_, fun r => ?_⟩
    · exact congrArg Prog.lift (replay_completed hs hr)
    · cases r with
      | ok x => exact after x
      | error e => trivial
  · refine ⟨trivial, fun r => ?_⟩
    cases r with
    | error e => trivial
    | ok inserted =>
      cases inserted with
      | true => exact after (.reserve context name, true)
      | false =>
        refine ⟨fun record r hs hr => ?_, fun r => ?_⟩
        · have hne : ¬ record.status = .failed := by rw [hs]; decide
          simp only [Prog.bind, if_neg hne]
          exact congrArg Prog.lift (replay_completed hs hr)
        · cases r with
          | error e => trivial
          | ok row =>
            cases row with
            | none => trivial
            | some current =>
              simp only [Prog.bind]
              split
              · refine ⟨trivial, fun r => ?_⟩
                cases r with
                | error e => trivial
                | ok changed =>
                  cases changed with
                  | true => exact after (.reserve context name, true)
                  | false => exact after (current, false)
              · exact after (current, false)

/-! ## A sample deployment -/

namespace Sample

/-- A tool that sends something, and a tool that looks something up. -/
def tools : List (ToolDefinition String) :=
  [{ name := "send", version := "1", description := "", inputSchema := [], outputSchema := [],
     sideEffect := .external, idempotency := .nonIdempotent },
   { name := "lookup", version := "1", description := "", inputSchema := [], outputSchema := [],
     sideEffect := .read }]

def cfg : Config String :=
  { lib := .text, tools, toolCache := some [("tool_results", { enabled := true })] }

def context : ToolContext :=
  { runId := "run", stepId := "step", tenantId := "tenant", userId := "user", permissions := ∅,
    idempotencyKey := "run:call" }

/-- `n` awaits of call `t` in the obliging environment. -/
def oblige (t n : Nat) : List (Move cfg.sem.Ans Exn) := List.replicate n (.run t obliging)

/-- A lookup that is cancelled while it waits for the cache. -/
def cancelledLookup : List (Move cfg.sem.Ans Exn) :=
  .enter 0 :: oblige 0 2 ++ [.run 0 fun _ => .before .cancelled]

/-- A lookup up to its recorded result. -/
def recordedLookup : List (Move cfg.sem.Ans Exn) := .enter 0 :: oblige 0 7

/-- Its cache write is cancelled, and the call is made once more. -/
def repeatedLookup : List (Move cfg.sem.Ans Exn) :=
  (.run 0 fun _ => .before .cancelled) :: oblige 0 2 ++ .enter 1 :: oblige 1 5

/-- The calls of one tool in an environment that `ok` accepts; a call enters if its number is
    its own. -/
def player (name : String) {allow : Allow cfg.sem.Ans Exn (World String)} {crash : Prop}
    {entry : String → ToolContext → Prop} (hentry : entry name context)
    (ok : (o : Op String) → Act cfg.sem.Ans Exn o → Bool)
    (hok : ∀ t w o a, ok o a = true → allow t w o a) :
    Player (toolSys cfg allow crash entry) where
  spawn w t := if (∀ i ∈ w.executions, i.2.owner ≠ t) ∧ t ∉ w.done then
      some (execute cfg name [] context, w)
    else none
  enter := by
    intro w t p w' h
    split at h
    · rename_i hs
      cases h
      refine ⟨⟨fun k row hk => hs.1 (k, row) (Dict.mem_of_get hk), hs.2⟩, rfl, name, [], context,
        rfl, hentry⟩
    · cases h
  ok _ _ := ok
  allow h := hok _ _ _ _ h

/-- The await completes. -/
def completes (o : Op String) : Act cfg.sem.Ans Exn o → Bool
  | .done (.ok _) => true
  | _ => false

theorem completes_of {o : Op String} {a : Act cfg.sem.Ans Exn o} (h : completes o a = true) :
    Completes a := by
  cases a with
  | done c =>
    cases c with
    | ok c => exact ⟨c, rfl⟩
    | error e => cases h
    | lost e c => cases h
  | before e => cases h
  | after e c => cases h

theorem scoped_lookup : Scoped cfg "lookup" context := by
  intro d policies hd hp _
  cases hd
  cases hp
  exact ⟨"tenant", by decide +kernel⟩

/-- Everything completes, and nothing is in the cache. -/
def uncached : (o : Op String) → Act cfg.sem.Ans Exn o → Bool
  | .cacheGet _, .done (.ok none) => true
  | .cacheGet _, _ => false
  | o, a => completes o a

abbrev anyPlayer (name : String) : Player (anyCalls cfg) :=
  player name trivial (fun _ _ => true) fun _ _ _ _ _ => trivial

abbrev storedPlayer : Player (storedCalls cfg) :=
  player "lookup" trivial (fun o a => !o.writesExecutions && o.isExternal || completes o a) <| by
    intro t w o a h
    rcases Bool.or_eq_true_iff.1 h with h | h
    · cases o <;> trivial
    · cases o <;> first | trivial | exact completes_of h

abbrev undisturbedPlayer : Player (undisturbedCalls cfg) :=
  player "lookup" scoped_lookup uncached <| by
    intro t w o a h
    cases o with
    | cacheGet k =>
      refine ⟨trivial, Or.inr ⟨none, ?_, nofun⟩⟩
      cases a with
      | done c =>
        cases c with
        | ok x =>
          cases x with
          | none => rfl
          | some x => cases h
        | error e => cases h
        | lost e c => cases h
      | before e => cases h
      | after e c => cases h
    | _ =>
      exact ⟨by first | trivial | exact completes_of h, by first | trivial | exact completes_of h⟩

abbrev lastingPlayer : Player (lastingCalls cfg) :=
  player "lookup" trivial completes <| by
    intro t w o a h
    have hc := completes_of h
    cases o <;> first
      | trivial
      | exact hc.clean
      | exact fun _ => hc.clean
      | exact Or.inl hc

end Sample

/-! ## The theorems -/

/-- **A one-shot handler runs at most once per key, in any interleaving**, whatever fails, is
    cancelled or crashes; and a call that finds the record COMPLETED returns the recorded
    result without calling the handler. -/
theorem one_shot_at_most_once (cfg : Config V) (w₀ : World V) (h₀ : Idle w₀)
    (P : Pool (Op.Resp (V := V)) Exn (World V) (ToolResult V))
    (hP : (anyCalls cfg).Reach (idlePool w₀) P) :
    (∀ name d key, cfg.tool name = some d → d.idempotency = .nonIdempotent →
      d.sideEffect ≠ .none → d.sideEffect ≠ .read →
      (P.world.invocations.filter fun i =>
        i.tool = name ∧ i.context.idempotencyKey = key).length ≤ 1) ∧
    (∀ t b o k context name row, P.tasks t = some (.await b o k) →
      P.world.executions.get context.idempotencyKey = some row →
      row.record.status = .completed →
      (o = .toolBegin context name ∨
        o = .pgSelect context.idempotencyKey context.tenantId ∧
          row.tenantId = context.tenantId) →
      ∃ r, row.record.result = some r ∧ ∀ c x w',
        cfg.sem.act t b P.world o (.done (Answer.ok c)) = some (x, w') →
          k x = .pure r ∧ w'.invocations = P.world.invocations) := by
  have hL : Ledger cfg False P.world := ledger_reach (anyCalls_tame cfg) h₀ hP
  refine ⟨fun name d key hd hid hn hr => ?_, fun t b o k context name row ht hrow hs ho => ?_⟩
  · have hone : oneShot cfg name = true := by
      simp only [oneShot, hd, readOnly, Bool.and_eq_true, Bool.not_eq_true',
        Bool.or_eq_false_iff, decide_eq_true_eq, decide_eq_false_iff_not]
      exact ⟨hid, hn, hr⟩
    refine le_trans ?_ (hL.once key)
    unfold World.calls World.invocationsOf
    rw [List.filter_filter]
    refine (List.monotone_filter_right _ fun i hi => ?_).length_le
    simp only [decide_eq_true_eq] at hi
    simp [hi.1, hi.2, hone]
  · have hrep : Replays (.await b o k) := by
      refine Sys.reach_tasks (Φ := Replays) (fun _ _ _ h => h.2) ?_ (fun _ _ h => by cases h) hP t _ ht
      rintro w t p w' ⟨-, -, name, arguments, context, rfl, -⟩
      exact execute_replays cfg name arguments context
    have hok := hL.rows _ _ hrow
    obtain ⟨r, hr⟩ := Option.isSome_iff_exists.1 (hok.result (hok.status.trans hs))
    refine ⟨r, hr, fun c x w' hact => ?_⟩
    have fr := Config.act_frame hact
    rcases ho with rfl | ⟨rfl, htn⟩
    · have hbegin : P.world.executions.beginMem t context name =
          ((row.record, false), P.world.executions) := by
        simp [Executions.beginMem, hrow, hs]
      have hx : x = .ok (row.record, false) := by
        change some (Except.ok (P.world.executions.beginMem t context name).1, _) = _ at hact
        rw [hbegin] at hact
        cases hact; rfl
      exact ⟨by rw [hx]; exact hrep.1 _ _ hs hr, fr.invocations rfl⟩
    · have hsel : P.world.executions.select context.idempotencyKey context.tenantId =
          some row.record := by
        simp [Executions.select, hrow, htn]
      have hx : x = .ok (some row.record) := by
        change some (Except.ok (P.world.executions.select _ _), _) = _ at hact
        rw [hsel] at hact
        cases hact; rfl
      exact ⟨by rw [hx]; exact hrep.1 _ _ hs hr, fr.invocations rfl⟩

/-- A sent message, and the theorem at the pool it leads to. -/
theorem one_shot_at_most_once_send :
    ∃ P, (anyCalls Sample.cfg).Reach (idlePool {}) P ∧ P.world.invocations.length = 1 ∧
      (P.world.invocations.filter fun i =>
        i.tool = "send" ∧ i.context.idempotencyKey = "run:call").length ≤ 1 := by
  have hplay : ((Sample.anyPlayer "send").play (.enter 0 :: Sample.oblige 0 7) (idlePool {})).map
      (fun P => P.world.invocations.length) = some 1 := by decide +kernel
  obtain ⟨P, hP, hlen⟩ := Player.exists_reach hplay
  exact ⟨P, hP, hlen, (one_shot_at_most_once Sample.cfg {} ⟨rfl, rfl⟩ P hP).1 "send" _ "run:call"
    rfl rfl (by decide) (by decide)⟩

/-- **No reservation is left behind**: if the statements of the execution store succeed, the
    cache key of every call can be built, and nothing strikes a call between its reservation
    and its handler, then no call that has ended leaves a STARTED record. -/
theorem reservation_resolved (cfg : Config V) (w₀ : World V) (h₀ : Idle w₀)
    (P : Pool (Op.Resp (V := V)) Exn (World V) (ToolResult V))
    (hP : (undisturbedCalls cfg).Reach (idlePool w₀) P) :
    ∀ t ∈ P.world.done, ∀ key row, P.world.executions.get key = some row → row.owner = t →
      row.status ≠ .started := by
  intro t ht key row hrow hown hs
  have hL : Ledger cfg True P.world := ledger_reach (undisturbedCalls_tame cfg) h₀ hP
  exact hL.live trivial key row hrow hs (hown ▸ ht)

/-- A lookup that has ended, and the theorem at the pool it leads to. -/
theorem reservation_resolved_lookup :
    ∃ P, (undisturbedCalls Sample.cfg).Reach (idlePool {}) P ∧
      (0 ∈ P.world.done ∧ ∃ row, P.world.executions.get "run:call" = some row ∧ row.owner = 0) ∧
      ∀ t ∈ P.world.done, ∀ key row, P.world.executions.get key = some row → row.owner = t →
        row.status ≠ .started := by
  have hplay : (Sample.undisturbedPlayer.play (.enter 0 :: Sample.oblige 0 9) (idlePool {})).map
      (fun P => (decide (0 ∈ P.world.done), (P.world.executions.get "run:call").map (·.owner))) =
      some (true, some 0) := by decide +kernel
  obtain ⟨P, hP, hx⟩ := Player.exists_reach hplay
  simp only [Prod.mk.injEq, decide_eq_true_eq, Option.map_eq_some_iff] at hx
  exact ⟨P, hP, hx, reservation_resolved Sample.cfg {} ⟨rfl, rfl⟩ P hP⟩

/-- A lookup is cancelled while it waits for the cache: the call has ended, every statement of
    the execution store has succeeded, and the record stays STARTED. -/
theorem cancelled_lookup_stays_started :
    ¬ ∀ (cfg : Config String) (w₀ : World String), Idle w₀ →
      ∀ P, (storedCalls cfg).Reach (idlePool w₀) P →
        ∀ t ∈ P.world.done, ∀ key row, P.world.executions.get key = some row → row.owner = t →
          row.status ≠ .started := by
  intro hall
  have hplay : (Sample.storedPlayer.play Sample.cancelledLookup (idlePool {})).map
      (fun P => (decide (0 ∈ P.world.done),
        (P.world.executions.get "run:call").map fun row => (row.owner, row.status))) =
      some (true, some (0, .started)) := by decide +kernel
  obtain ⟨P, hP, hx⟩ := Player.exists_reach hplay
  simp only [Prod.mk.injEq, decide_eq_true_eq, Option.map_eq_some_iff] at hx
  obtain ⟨hdone, row, hrow, hown, hs⟩ := hx
  exact hall Sample.cfg {} ⟨rfl, rfl⟩ P hP 0 hdone "run:call" row hrow hown hs

end TracciaRuntime
