/-
  Recovery, run by run.

  `recover` makes its attempts in one loop, and nothing in the loop handles what an attempt
  raises.  The call therefore attempts each run that it has listed as long as no attempt raises
  before the last run that is not paused.

  * `Course`: what a loop that has ended has done;
  * `recovery_iff`.
-/
import TracciaRuntime.Proof.Conduct
import TracciaRuntime.Async.Ended

namespace TracciaRuntime

open Py Async Prog AgentRuntime

variable {V : Type}

/-! ## Attempts -/

/-- An attempt at a run begins with its driver. -/
def Op.isAttempt : Op V → Bool
  | .taskLive _ => true
  | _ => false

/-- The number of the attempts in a past. -/
def attempts (h : Awaits V) : Nat := h.countP fun a => a.1.isAttempt

/-- The number of the runs that have been scheduled. -/
def scheduled (h : Awaits V) : Nat := h.countP fun a => a.1.isSchedule && a.2.isOk

/-- Nothing has raised. -/
def AllOk (h : Awaits V) : Prop := ∀ a ∈ h, a.2.isOk = true

/-- One after the other, an attempt at each of the runs has come to its end. -/
inductive Attempts : List (RunState V) → Awaits V → Prop
  | nil : Attempts [] []
  | cons {s : RunState V} {rest : List (RunState V)} {h h' : Awaits V} {y : Except Exn Bool} :
      (recoverRun s).After h (ofResult y) → Attempts rest h' → Attempts (s :: rest) (h' ++ h)

/-- What a call of `recover` is for: it attempts the runs it has listed, but for paused ones at
    the end of the list, and returns the number of the runs that it has scheduled. -/
def RecoversEach (limit : Nat) (h : Awaits V) : Prop :=
  ∀ active h', h = h' ++ [⟨.runsListActive limit, .ok active⟩] →
    (∃ k, Attempts (active.take k) h' ∧ ∀ s ∈ active.drop k, s.status.isPaused = true) ∧
      ∀ n, (recover limit).After h (ofResult (.ok n)) → n = scheduled h'

/-- What it takes: where something raises, only paused runs are still to come. -/
def RaisesLast (limit : Nat) (h : Awaits V) : Prop :=
  ∀ active h', h = h' ++ [⟨.runsListActive limit, .ok active⟩] →
    AllOk h' ∨ ∀ s ∈ active.drop (attempts h'), s.status.isPaused = true

/-! ## Programs that raise what they are told -/

/-- An operation that neither begins an attempt nor schedules. -/
def Op.isPlain (o : Op V) : Bool := !o.isAttempt && !o.isSchedule

/-- Once it has ended, the program has awaited plain operations, and raises if one has raised. -/
def Plain {α : Type} (p : Task V α) : Prop :=
  ∀ h x, p.After h (ofResult x) → (∀ a ∈ h, a.1.isPlain = true) ∧ (AllOk h ↔ x.isOk = true)

theorem allOk_append {h h' : Awaits V} : AllOk (h' ++ h) ↔ AllOk h' ∧ AllOk h := by
  simp only [AllOk, List.mem_append, or_imp, forall_and]

theorem attempts_append {h h' : Awaits V} : attempts (h' ++ h) = attempts h' + attempts h :=
  List.countP_append

theorem scheduled_append {h h' : Awaits V} : scheduled (h' ++ h) = scheduled h' + scheduled h :=
  List.countP_append

theorem tally_plain {h : Awaits V} (hp : ∀ a ∈ h, a.1.isPlain = true) :
    attempts h = 0 ∧ scheduled h = 0 := by
  constructor
  · refine List.countP_eq_zero.2 fun a ha => ?_
    have := hp a ha
    simp_all [Op.isPlain]
  · refine List.countP_eq_zero.2 fun a ha => ?_
    have := hp a ha
    simp_all [Op.isPlain]

section
variable {α β : Type}

theorem Plain.pure (a : α) : Plain (Pure.pure a : Task V α) := by
  intro h x hx
  obtain ⟨rfl, hy⟩ := After.of_result (x := .ok a) rfl hx
  cases x <;> cases hy
  simp [AllOk, Except.isOk, Except.toBool]

theorem Plain.call {o : Op V} (ho : o.isPlain = true) : Plain (await o) := by
  intro h x hx
  rw [After.call_cases hx]
  simp [AllOk, ho]

theorem Plain.bind {p : Task V α} {f : α → Task V β} (hp : Plain p) (hf : ∀ a, Plain (f a)) :
    Plain (p >>= f) := by
  intro h x hx
  rcases hx.bind_cases with ⟨e, he, rfl⟩ | ⟨a, h₁, h₂, rfl, h₁a, hx⟩
  · exact hp h _ he
  · obtain ⟨hp₁, hc₁⟩ := hp h₁ _ h₁a
    obtain ⟨hp₂, hc₂⟩ := hf a h₂ _ hx
    refine ⟨fun b hb => ?_, ?_⟩
    · rcases List.mem_append.1 hb with hb | hb
      · exact hp₂ b hb
      · exact hp₁ b hb
    · rw [allOk_append, hc₂, hc₁]
      simp [Except.isOk, Except.toBool]

end

theorem saveAs_plain {s : RunState V} {status : RunStatus} : Plain (saveAs s status) :=
  .bind (.call rfl) fun _ => .bind (.call rfl) fun _ => .pure _

theorem emit_plain {s : RunState V} {body : EventBody V} {stepId : Option String} :
    Plain (emit s body stepId) :=
  .bind (.call rfl) fun _ => .call rfl

/-- What is left of an attempt after its beginning. -/
def Tries (p : Task V Bool) : Prop :=
  ∀ h y, p.After h (ofResult y) → attempts h = 0 ∧ (AllOk h ↔ y.isOk = true) ∧
    ∀ b, y = .ok b → scheduled h = if b then 1 else 0

theorem Tries.bind {α : Type} {p : Task V α} {f : α → Task V Bool} (hp : Plain p)
    (hf : ∀ a, Tries (f a)) : Tries (p >>= f) := by
  intro h y hy
  rcases hy.bind_cases with ⟨e, he, rfl⟩ | ⟨a, h₁, h₂, rfl, h₁a, hy⟩
  · obtain ⟨hplain, hok⟩ := hp h _ he
    exact ⟨(tally_plain hplain).1, hok, fun b hb => by cases hb⟩
  · obtain ⟨hplain, hok⟩ := hp h₁ _ h₁a
    obtain ⟨hattempts, hscheduled⟩ := tally_plain hplain
    obtain ⟨ha, hok₂, hs⟩ := hf a h₂ y hy
    refine ⟨?_, ?_, fun b hb => ?_⟩
    · rw [attempts_append, ha, hattempts]
    · rw [allOk_append, hok₂, hok]
      simp [Except.isOk, Except.toBool]
    · rw [scheduled_append, hs b hb, hscheduled, Nat.add_zero]

theorem Tries.overdue : Tries (Pure.pure false : Task V Bool) := by
  intro h y hy
  obtain ⟨rfl, hx⟩ := After.of_result (x := .ok false) rfl hy
  cases y <;> cases hx
  refine ⟨rfl, by simp [AllOk, Except.isOk, Except.toBool], fun b hb => ?_⟩
  cases hb
  rfl

theorem Tries.schedule {runId tenantId : String} : Tries (do
    await (.schedule runId tenantId)
    Pure.pure true : Task V Bool) := by
  intro h y hy
  obtain ⟨x, hx, rfl⟩ := After.of_bind (f := fun _ => true) hy
  rw [After.call_cases hx]
  cases x with
  | error e => simp [attempts, AllOk, Except.map, Except.isOk, Except.toBool, Op.isAttempt]
  | ok u =>
    refine ⟨rfl, by simp [AllOk, Except.map, Except.isOk, Except.toBool], fun b hb => ?_⟩
    cases hb
    rfl

/-- **An attempt** raises if something raises, and else it has scheduled the run or not. -/
theorem recoverRun_after {s : RunState V} {h : Awaits V} {y : Except Exn Bool}
    (hy : (recoverRun s).After h (ofResult y)) :
    attempts h = 1 ∧ (AllOk h ↔ y.isOk = true) ∧
      ∀ b, y = .ok b → scheduled h = if b then 1 else 0 := by
  have timedOut : ∀ overdue : Bool, Tries (if overdue = true then do
        let s ← saveAs { s with error := some "Run deadline elapsed before recovery." } .timedOut
        emit s (.runFailed (some "timeout_during_recovery") none) none
        Pure.pure false
      else do
        let s ← if s.status.recoveryStatus = s.status then Pure.pure s
          else saveAs s s.status.recoveryStatus
        await (.schedule s.id s.request.tenantId)
        Pure.pure true) := by
    intro overdue
    split
    · exact .bind saveAs_plain fun _ => .bind emit_plain fun _ => .overdue
    · dsimp only
      split
      · exact .bind (.pure _) fun _ => .schedule
      · exact .bind saveAs_plain fun _ => .schedule
  rcases hy.bind_cases with ⟨e, he, rfl⟩ | ⟨live, h₁, h₂, rfl, hlive, hrest⟩
  · rw [After.call_cases he]
    exact ⟨rfl, by simp [AllOk, Except.isOk, Except.toBool], fun b hb => by cases hb⟩
  · rw [After.call_cases hlive]
    have begun : ∀ p : Task V Bool, Tries p → p.After h₂ (ofResult y) →
        attempts (h₂ ++ [⟨.taskLive s.id, .ok live⟩]) = 1 ∧
        (AllOk (h₂ ++ [⟨.taskLive s.id, .ok live⟩]) ↔ y.isOk = true) ∧
        ∀ b, y = .ok b → scheduled (h₂ ++ [⟨.taskLive s.id, .ok live⟩]) = if b then 1 else 0 := by
      intro p hp hy
      obtain ⟨ha, hok, hs⟩ := hp h₂ y hy
      refine ⟨?_, ?_, fun b hb => ?_⟩
      · rw [attempts_append, ha]; rfl
      · rw [allOk_append, hok]
        simp [AllOk, Except.isOk, Except.toBool]
      · rw [scheduled_append, hs b hb]; rfl
    refine begun _ ?_ hrest
    split
    · exact .overdue
    · dsimp only
      split
      · exact .bind (.pure _) timedOut
      · exact .bind (.call rfl) fun _ => .bind (.pure _) timedOut

/-! ## The loop -/

theorem Attempts.attempts {active : List (RunState V)} {h : Awaits V} (ha : Attempts active h) :
    attempts h = active.length := by
  induction ha with
  | nil => rfl
  | cons hs _ ih =>
    rw [attempts_append, ih, (recoverRun_after hs).1, List.length_cons]

/-- What the loop has done when it comes to its end. -/
theorem recoverAll_after {active : List (RunState V)} {n : Nat} {h : Awaits V}
    {x : Except Exn Nat} (hx : (recoverAll active n).After h (ofResult x)) :
    ∃ k, Attempts (active.take k) h ∧
      (AllOk h ∧ active.length ≤ k ∧ x = .ok (n + scheduled h) ∨
        k = attempts h ∧ ¬ AllOk h ∧ ∃ e, x = .error e) := by
  induction active generalizing n h with
  | nil =>
    obtain ⟨rfl, hn⟩ := After.of_result (x := .ok n) rfl hx
    refine ⟨0, .nil, .inl ⟨by simp [AllOk], le_rfl, ?_⟩⟩
    cases x <;> cases hn
    rfl
  | cons s rest ih =>
    rcases hx.bind_cases with ⟨e, he, rfl⟩ | ⟨b, h₁, h₂, rfl, hs, hrest⟩
    · obtain ⟨hone, hok, -⟩ := recoverRun_after he
      have hattempts : Attempts (List.take 1 (s :: rest)) ([] ++ h) := .cons he .nil
      refine ⟨1, hattempts, .inr ⟨hone.symm, fun h => ?_, e, rfl⟩⟩
      cases hok.1 h
    · obtain ⟨hone, hok, hb⟩ := recoverRun_after hs
      obtain ⟨k, hattempts, hend⟩ := ih hrest
      refine ⟨k + 1, .cons hs hattempts, ?_⟩
      rcases hend with ⟨hok₂, hk, rfl⟩ | ⟨rfl, hraised, e, rfl⟩
      · refine .inl ⟨allOk_append.2 ⟨hok₂, hok.2 rfl⟩, ?_, ?_⟩
        · rw [List.length_cons]
          omega
        · rw [scheduled_append, hb b rfl]
          congr 1
          split <;> omega
      · exact .inr ⟨by rw [attempts_append, hone], fun h => hraised (allOk_append.1 h).1, e, rfl⟩

/-- A call of `recover`, and the loop in it. -/
theorem recover_after {limit : Nat} {active : List (RunState V)} {h' : Awaits V}
    {x : Except Exn Nat}
    (hx : (recover limit).After (h' ++ [⟨.runsListActive limit, .ok active⟩]) (ofResult x)) :
    (recoverAll active 0).After h' (ofResult x) := by
  rcases hx.bind_cases with ⟨e, he, -⟩ | ⟨active', h₁, h₂, heq, hlist, hrest⟩
  · have hone := After.call_cases he
    cases h' with
    | nil => cases hone
    | cons a l => simp at hone
  · rw [After.call_cases hlist] at heq
    obtain ⟨rfl, hlast⟩ := List.append_inj' heq rfl
    cases hlast
    exact hrest

/-- The runs that have not been attempted are those that are left. -/
theorem RecoversEach.raisesLast {limit : Nat} {h : Awaits V} (hr : RecoversEach limit h) :
    RaisesLast limit h := by
  intro active h' hh
  obtain ⟨⟨k, hk, hpaused⟩, -⟩ := hr active h' hh
  refine .inr fun s hs => ?_
  rw [hk.attempts, List.length_take] at hs
  refine hpaused s ?_
  rcases le_total k active.length with hle | hle
  · rwa [min_eq_left hle] at hs
  · rw [min_eq_right hle, List.drop_length] at hs
    cases hs

theorem RaisesLast.recoversEach {limit : Nat} {h : Awaits V} {x : Except Exn Nat}
    (hx : (recover limit).After h (ofResult x)) (hr : RaisesLast limit h) :
    RecoversEach limit h := by
  rintro active h' rfl
  refine ⟨?_, fun n hn => ?_⟩
  · obtain ⟨k, hk, hend⟩ := recoverAll_after (recover_after hx)
    refine ⟨k, hk, fun s hs => ?_⟩
    rcases hend with ⟨-, hle, -⟩ | ⟨rfl, hraised, -⟩
    · rw [List.drop_eq_nil_of_le hle] at hs
      cases hs
    · exact (hr active h' rfl).resolve_left hraised s hs
  · obtain ⟨k, -, ⟨-, -, hcount⟩ | ⟨-, -, e, he⟩⟩ := recoverAll_after (recover_after hn)
    · rw [Nat.zero_add] at hcount
      exact Except.ok.inj hcount
    · cases he

/-! ## In a deployment -/

section
variable {cfg : Config V} {A : Allow cfg.sem.Ans Exn (World V)} {calls : Nat → Call V}
  {crash : Nat → Prop} {w₀ : World V} {l : Log cfg Unit}
  {P : Pool (Op.Resp (V := V)) Exn (World V) Unit}

/-- A call of `recover` that has ended. -/
theorem recover_ended (h : (runtimeSys cfg A calls crash).Trace (freshPool w₀) l P) {t limit : Nat}
    {x : Except Exn Unit} (hc : calls t = .recover limit) (hd : P.world.drivers.get t = none)
    (he : .ended t x ∈ l) : ∃ y, (recover limit).After (pastOf t l) (ofResult y) := by
  obtain ⟨-, p, hp, hq⟩ := (h.tracked runtimeSys_once fun _ => rfl).ended t x he
  rcases (employed h t p hp).2 with ⟨d, hd', -⟩ | ⟨-, rfl⟩
  · rw [hd] at hd'; cases hd'
  · rw [hc] at hq
    obtain ⟨y, hy, -⟩ := After.of_bind (f := fun _ => ()) hq
    exact ⟨y, hy⟩

/-- **Recovery is per run** if and only if nothing raises before the last run that is not
    paused. -/
theorem recovery_iff (h : (runtimeSys cfg A calls crash).Trace (freshPool w₀) l P) {t limit : Nat}
    {x : Except Exn Unit} (hc : calls t = .recover limit) (hd : P.world.drivers.get t = none)
    (he : .ended t x ∈ l) : RecoversEach limit (pastOf t l) ↔ RaisesLast limit (pastOf t l) := by
  obtain ⟨y, hy⟩ := recover_ended h hc hd he
  exact ⟨RecoversEach.raisesLast, fun hr => hr.recoversEach hy⟩

end

namespace Sample

/-- A run that a stopped process has left behind. -/
def abandoned (id : String) : RunState String :=
  { id, request, sessionId := "session", deadline := some 10 }

def restarted (ids : List String) : World String :=
  { world with runs := ids.map fun id => (id, ⟨⟨0, abandoned id⟩, []⟩) }

/-- The process recovers; call 0 cancels a run meanwhile. -/
def recovering : Nat → Call String
  | 0 => .cancel "a" "tenant"
  | _ => .recover 10

/-- The clock. -/
def timeIs (now : ℚ) : (o : Op String) → Act sendCfg.sem.Ans Exn o
  | .utcNow => .done (Answer.ok now)
  | o => obliging o

/-- The deployment in an environment that does anything. -/
abbrev recoverySys := runtimeSys sendCfg (fun _ _ _ _ => True) recovering fun _ => True

def recoveryPlayer : Player recoverySys :=
  runtimePlayer _ _ (fun _ _ _ _ => true) fun _ _ _ _ _ => trivial

theorem listActive_two : (restarted ["a", "b"]).runs.listActive 10 =
    [abandoned "a", abandoned "b"] := by
  have hsorted : ([abandoned "a", abandoned "b"] : List (RunState String)).Pairwise
      fun a b => decide (a.updatedAt ≤ b.updatedAt) = true := by decide +kernel
  exact congrArg (List.take 10) (List.mergeSort_of_pairwise hsorted)

/-- What is left of the call when it has listed two runs. -/
def listedTwo : Task String Unit := do
  let _ ← recoverAll [abandoned "a", abandoned "b"] 0
  Pure.pure ()

/-- The world when the call has entered. -/
def begun : World String := { restarted ["a", "b"] with started := {1} }

/-- The events up to the listing, and the pool then. -/
def afterListing : List (Event (Op.Resp (V := String)) recoverySys.Ans Exn Unit) ×
    Pool (Op.Resp (V := String)) Exn (World String) Unit :=
  ([.awaited 1 (.runsListActive 10) (obliging _) (.ok [abandoned "a", abandoned "b"]),
    .entered 1 ((Call.recover 10).task sendCfg)],
    ⟨begun, Function.update (Function.update (fun _ => none) 1
      (some ((Call.recover 10).task sendCfg))) 1 (some listedTwo)⟩)

theorem listing_trace : recoverySys.Trace (freshPool (restarted ["a", "b"])) afterListing.1
    afterListing.2 := by
  have henter : recoverySys.enter (restarted ["a", "b"]) 1 ((Call.recover 10).task sendCfg)
      begun := ⟨by decide, rfl, rfl⟩
  have hentered : recoverySys.Trace (freshPool (restarted ["a", "b"]))
      [.entered 1 ((Call.recover 10).task sendCfg)]
      ⟨begun, Function.update (fun _ => none) 1 (some ((Call.recover 10).task sendCfg))⟩ :=
    Sys.Trace.enter (Y := recoverySys) (P := freshPool (restarted ["a", "b"])) .refl rfl henter
  have hact : recoverySys.act 1 false begun (.runsListActive 10) (obliging _) =
      some (.ok [abandoned "a", abandoned "b"], begun) := by
    show some (Except.ok (begun.runs.listActive 10), begun) = _
    rw [show begun.runs.listActive 10 = _ from listActive_two]
  exact .run (obliging _) hentered rfl trivial hact

/-- What the call has listed. -/
def listed (limit : Nat) (h : Awaits String) : Option (List (RunState String)) :=
  match h.getLast? with
  | some ⟨.runsListActive n, .ok active⟩ => if n = limit then some active else none
  | _ => none

theorem eq_of_listed {limit : Nat} {h : Awaits String} {active : List (RunState String)}
    (hl : listed limit h = some active) :
    h = h.dropLast ++ [⟨.runsListActive limit, .ok active⟩] := by
  unfold listed at hl
  split at hl
  · rename_i n active' hlast
    split_ifs at hl with hn
    cases hl
    obtain ⟨h', rfl⟩ := List.getLast?_eq_some_iff.1 hlast
    rw [List.dropLast_concat, hn]
  · cases hl

end Sample

open Sample

/-- A run is timed out, and there is no other. -/
theorem recovery_iff_sample : ∃ l P x,
    recoverySys.Trace (freshPool (restarted ["a"])) l P ∧ .ended 1 x ∈ l ∧
      RecoversEach 10 (pastOf 1 l) := by
  obtain ⟨l, P, hP, h⟩ := recoveryPlayer.exists_trace
    ([.enter 1] ++ obliges 1 2 ++ [.run 1 (timeIs 20), .run 1 (timeIs 20)] ++ obliges 1 3)
    (freshPool (restarted ["a"])) (fun x => (lastEnds 1 (fun _ => true) x.1,
      (x.2.world.drivers.get 1).isNone, (pastOf 1 x.1).all (·.2.isOk)))
    (a := (true, true, true)) (by decide +kernel)
  obtain ⟨hend, h⟩ := Prod.mk.inj h
  obtain ⟨hd, hok⟩ := Prod.mk.inj h
  obtain ⟨x, he, -⟩ := exists_of_lastEnds hend
  refine ⟨l, P, x, hP, he, (recovery_iff hP rfl (Option.isNone_iff_eq_none.1 hd) he).2 ?_⟩
  intro active h' hh
  refine .inl fun a ha => List.all_eq_true.1 hok a ?_
  rw [show pastOf 1 (l, P).1 = _ from hh]
  exact List.mem_append_left _ ha

/-- A run is cancelled between the listing and its save, and the run after it is not attempted. -/
theorem recovery_stops : ¬ ∀ (cfg : Config String) (calls : Nat → Call String)
    (w₀ : World String) (l : Log cfg Unit) (P : Pool (Op.Resp (V := String)) Exn _ Unit),
    (runtimeSys cfg (fun _ _ _ _ => True) calls fun _ => True).Trace (freshPool w₀) l P →
    ∀ t x limit, calls t = .recover limit → P.world.drivers.get t = none → .ended t x ∈ l →
      RecoversEach limit (pastOf t l) := by
  intro hclaim
  obtain ⟨⟨l, P⟩, hplay, h⟩ := Option.map_eq_some_iff.1 (show
    ((recoveryPlayer.record (obliges 1 1 ++ [.enter 0] ++ obliges 0 6 ++
      [.run 1 (timeIs 20), .run 1 (timeIs 20), .run 1 obliging]) afterListing).map fun x =>
        (lastEnds 1 (fun _ => true) x.1, (x.2.world.drivers.get 1).isNone,
          (pastOf 1 x.1).dropLast.all (·.2.isOk), (listed 10 (pastOf 1 x.1)).map fun active =>
            (active.drop (attempts (pastOf 1 x.1).dropLast)).map (·.status))) =
      some (true, true, false, some [.received]) by decide +kernel)
  have hP : recoverySys.Trace (freshPool (restarted ["a", "b"])) l P :=
    Player.record_trace listing_trace hplay
  obtain ⟨hend, h⟩ := Prod.mk.inj h
  obtain ⟨hd, h⟩ := Prod.mk.inj h
  obtain ⟨hraised, h⟩ := Prod.mk.inj h
  obtain ⟨x, he, -⟩ := exists_of_lastEnds hend
  obtain ⟨active, hlisted, hleft⟩ := Option.map_eq_some_iff.1 h
  have heach := hclaim sendCfg recovering _ l P hP 1 x 10 rfl (Option.isNone_iff_eq_none.1 hd) he
  rcases heach.raisesLast active _ (eq_of_listed hlisted) with hok | hpaused
  · exact absurd ((List.all_eq_true.2 hok).symm.trans hraised) (by decide)
  · obtain ⟨s, rest, hs, hstatus, -⟩ := List.map_eq_cons_iff.1 hleft
    have hmem : s ∈ s :: rest := List.mem_cons_self
    rw [← hs] at hmem
    have hp := hpaused s hmem
    rw [hstatus] at hp
    cases hp

end TracciaRuntime
