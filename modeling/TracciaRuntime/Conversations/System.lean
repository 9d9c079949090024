/-
  Traccia Runtime formalization — processes that serve conversations.

  * `ConversationWorld`: the store, the published events and, for each process, its conversation
    service;
  * `ConversationConfig.sem`: what the operations do. The store does not fail but for the
    conflicts that it reports; the event bus, the audit log, handlers and follow-up providers
    can, and a suspended task can be cancelled;
  * `conversationSys`: any number of calls and the responses that they create, interleaved.
-/
import TracciaRuntime.Async.Play
import TracciaRuntime.Async.Safe
import TracciaRuntime.Conversations.Service
import TracciaRuntime.Effect

namespace TracciaRuntime

open Py Async

variable {V : Type}

namespace ConversationOp

/-- The steps that run inside the process, without suspending the task. -/
def isLocal : ConversationOp V → Bool
  | uuid | utcNow | accepting | unlock | active _ | createTask _ | cancelTask _ | stopAccepting
  | cancelTasks _ => true
  | _ => false

/-- The calls out of the service that may raise. -/
def isOutside : ConversationOp V → Bool
  | nextSequence .. | publish _ | audit .. | external _ | suggest .. => true
  | _ => false

/-- The environment's choice when the operation completes. -/
abbrev Choice : ConversationOp V → Type
  | nextSequence .. => Nat
  | external _ => V
  | suggest .. => List String
  | uuid => String
  | utcNow => Time
  | createTask _ => Nat
  | _ => Unit

end ConversationOp

/-- The conversation service of a process. -/
structure ConversationProc where
  accepting : Bool := true
  locked : Bool := false
  /-- `_tasks`: the response of each conversation -/
  tasks : Dict String Nat := []

/-- What a call of `submit` returns; the answers of the other calls are dropped. -/
abbrev ConversationReply (V : Type) := Option (ConversationMessage V × ConversationMessage V)

structure ConversationWorld (V : Type) where
  now : Time := 0
  /-- the identifiers in use, with the task that got them from `uuid4` -/
  issued : Dict String (Option Nat) := []
  store : ConversationStore V := {}
  /-- the published events, newest first -/
  events : List (ConversationEvent V) := []
  procs : Nat → ConversationProc := fun _ => {}
  /-- the tasks that `submit` has created -/
  turns : Dict Nat (Turn V) := []
  started : Finset Nat := ∅
  /-- the tasks that have ended, with their outcomes -/
  ended : Dict Nat (Except Exn (ConversationReply V)) := []
  cancelRequested : Finset Nat := ∅

namespace ConversationWorld
variable (w : ConversationWorld V)

def isDone (t : Nat) : Bool := (w.ended.get t).isSome

def updateProc (p : Nat) (f : ConversationProc → ConversationProc) : ConversationWorld V :=
  { w with procs := Function.update w.procs p (f (w.procs p)) }

/-- The response of a conversation in process `p`, if it is not done. -/
def activeTask (p : Nat) (conversationId : String) : Option Nat :=
  ((w.procs p).tasks.get conversationId).filter fun d => !w.isDone d

/-- The operation completes for task `t`. -/
def effect (cfg : ConversationConfig V) (t : Nat) : (o : ConversationOp V) → o.Choice →
    Option (Except Exn o.Resp × ConversationWorld V)
  | .get conversationId tenantId, _ => some (.ok (w.store.get conversationId tenantId), w)
  | .save c expectedVersion, _ => some (match w.store.save c expectedVersion with
    | .ok (c, store) => (.ok c, { w with store })
    | .error e => (.error e, w))
  | .appendMessage m, _ => some (match w.store.appendMessage m with
    | .ok store => (.ok (), { w with store })
    | .error e => (.error e, w))
  | .updateMessage _ m, _ => some (match w.store.updateMessage m with
    | .ok store => (.ok (), { w with store })
    | .error e => (.error e, w))
  | .messages conversationId tenantId limit, _ =>
    some (.ok (w.store.list conversationId tenantId limit), w)
  | .pendingMessages limit, _ => some (.ok (w.store.pendingMessages limit), w)
  | .nextSequence .., (n : Nat) => some (.ok n, w)
  | .publish e, _ => some (.ok (), { w with events := e :: w.events })
  | .audit .., _ => some (.ok (), w)
  | .external _, x => some (.ok x, w)
  | .suggest .., x => some (.ok x, w)
  | .uuid, (id : String) =>
    if (w.issued.get id).isSome then none
    else some (.ok id, { w with issued := w.issued.set id (some t) })
  | .utcNow, (now : Time) => if now < w.now then none else some (.ok now, { w with now })
  | .accepting, _ => some (.ok (w.procs (cfg.proc t)).accepting, w)
  | .lock, _ =>
    if (w.procs (cfg.proc t)).locked then none
    else some (.ok (), w.updateProc (cfg.proc t) fun p => { p with locked := true })
  | .unlock, _ => some (.ok (), w.updateProc (cfg.proc t) fun p => { p with locked := false })
  | .active conversationId, _ =>
    some (.ok (w.activeTask (cfg.proc t) conversationId).isSome, w)
  | .createTask turn, (d : Nat) =>
    if d ∈ w.started ∨ (w.turns.get d).isSome ∨ cfg.proc d ≠ cfg.proc t then none
    else
      let w := { w with turns := w.turns.set d turn }
      some (.ok (), w.updateProc (cfg.proc t) fun p =>
        { p with tasks := p.tasks.set turn.conversation.id d })
  | .begin, _ => some (.ok (), w)
  | .cancelTask conversationId, _ =>
    some (.ok (), match w.activeTask (cfg.proc t) conversationId with
      | some d => { w with cancelRequested := insert d w.cancelRequested }
      | none => w)
  | .stopAccepting, _ =>
    some (.ok ((w.procs (cfg.proc t)).tasks.values.filter fun d => !w.isDone d),
      w.updateProc (cfg.proc t) fun p => { p with accepting := false })
  | .waitTasks tasks timeout, _ =>
    if timeout = true ∨ ∀ d ∈ tasks, w.isDone d then some (.ok (), w) else none
  | .cancelTasks tasks, _ =>
    let pending := tasks.filter fun d => !w.isDone d
    some (.ok pending, { w with cancelRequested := w.cancelRequested ∪ pending.toFinset })

/-- A cancellation strikes the suspended task `t`: a response if it has been requested, any
    other task as its caller likes. -/
def interrupt (t : Nat) : Exn → Option (ConversationWorld V)
  | .cancelled =>
    if t ∈ w.cancelRequested then some { w with cancelRequested := w.cancelRequested.erase t }
    else if (w.turns.get t).isSome then none else some w
  | _ => none

end ConversationWorld

/-- The semantics of the programs of the service. -/
def ConversationConfig.sem (cfg : ConversationConfig V) :
    Sem (ConversationOp.Resp (V := V)) Exn (ConversationWorld V) where
  Ans o := Answer o.Choice
  eff t w o
    | .ok c => w.effect cfg t o c
    | .error e => if o.isOutside ∧ e ≠ .deadline then some (.error e, w) else none
    | .lost e c =>
      if o.isOutside ∧ e ≠ .deadline then (w.effect cfg t o c).map fun x => (.error e, x.2)
      else none
  susp o := !o.isLocal
  intr t _ w := w.interrupt t

/-! ## Calls -/

inductive ConversationCall (V : Type) where
  | submit (x : ConversationService.Submission V)
  | update (conversationId tenantId userId : String) (title : Option String)
      (status : Option ConversationStatus)
  | cancel (conversationId tenantId : String)
  | recover (limit : Nat)
  | shutdown

/-- A task whose answer is dropped. -/
def Talk.drop {α : Type} (p : Talk V α) : Talk V (ConversationReply V) := do
  let _ ← p
  pure none

def ConversationCall.task (cfg : ConversationConfig V) :
    ConversationCall V → Talk V (ConversationReply V)
  | submit x => do
    let messages ← ConversationService.submit cfg x
    pure (some messages)
  | update conversationId tenantId userId title status =>
    Talk.drop (ConversationService.update cfg conversationId tenantId userId title status)
  | cancel conversationId tenantId => Talk.drop (ConversationService.cancel conversationId tenantId)
  | recover limit => Talk.drop (ConversationService.recover cfg limit)
  | shutdown => Talk.drop ConversationService.shutdown

/-- What task `t` runs: the response that has been created, or the call with this number. -/
def talkOf (cfg : ConversationConfig V) (calls : Nat → ConversationCall V)
    (w : ConversationWorld V) (t : Nat) : Talk V (ConversationReply V) :=
  match w.turns.get t with
  | some turn => Talk.drop (ConversationService.respond cfg turn)
  | none => (calls t).task cfg

def conversationSys (cfg : ConversationConfig V)
    (allow : Allow cfg.sem.Ans Exn (ConversationWorld V)) (calls : Nat → ConversationCall V) :
    Sys (ConversationOp.Resp (V := V)) Exn (ConversationWorld V) (ConversationReply V) where
  toSem := cfg.sem
  allow := allow
  enter w t p w' := t ∉ w.started ∧ p = talkOf cfg calls w t ∧
    w' = { w with started := insert t w.started }
  fin t x w := { w with ended := w.ended.set t x }
  kill _ _ _ := False

/-- No call has been made; there may be conversations with messages. -/
structure ConversationWorld.Fresh (w : ConversationWorld V) : Prop where
  turns : w.turns = []
  ended : w.ended = []
  tasks : ∀ p, (w.procs p).tasks = []
  /-- the messages are filed under their conversations -/
  filed : ∀ m ∈ w.store.all, w.store.message m.conversationId m.id = some m
  /-- the identifiers of the stored messages are in use -/
  issued : ∀ m ∈ w.store.all, (w.issued.get m.id).isSome
  /-- no task has got one -/
  unissued : ∀ id u, w.issued.get id = some u → u = none

/-- The processes before the first call. -/
def quietPool (w : ConversationWorld V) :
    Pool (ConversationOp.Resp (V := V)) Exn (ConversationWorld V) (ConversationReply V) :=
  ⟨w, fun _ => none⟩

/-! ## Computed runs -/

/-- The processes in an environment that `ok` accepts. -/
def conversationPlayer (cfg : ConversationConfig V)
    {allow : Allow cfg.sem.Ans Exn (ConversationWorld V)} (calls : Nat → ConversationCall V)
    (ok : Nat → ConversationWorld V → (o : ConversationOp V) → Act cfg.sem.Ans Exn o → Bool)
    (hok : ∀ t w o a, ok t w o a = true → allow t w o a) :
    Player (conversationSys cfg allow calls) where
  spawn w t := if t ∈ w.started then none
    else some (talkOf cfg calls w t, { w with started := insert t w.started })
  enter := by
    intro w t p w' h
    split at h
    · cases h
    · rename_i ht
      cases h
      exact ⟨ht, rfl, rfl⟩
  ok := ok
  allow h := hok _ _ _ _ h

namespace TalkSample

/-- A handler that answers with a text. -/
def answering : ConversationHandler String where
  handle _ _ _ := do
    let text ← attend (.external "answer")
    pure { content := [.text text] }
  uses _ _ _ _ h _ := Prog.Uses.bind (Prog.Uses.call (h _)) fun _ => Prog.Uses.pure _

def talking : ConversationConfig String where
  handlers := [("runtime", answering)]
  audits := false
  redact := id
  unexpectedErrorMessage _ := "The request could not be completed."
  str := id
  bool b := if b then "true" else "false"
  dump _ := []

/-- The conversation of a user. -/
def conversation : Conversation :=
  { id := "c", tenantId := "tenant", userId := "user", agent := "agent", title := "Talk" }

def talks : ConversationWorld String := { store := { conversations := [("c", conversation)] } }

theorem talks_fresh : talks.Fresh where
  turns := rfl
  ended := rfl
  tasks _ := rfl
  filed _ h := nomatch h
  issued _ h := nomatch h
  unissued _ _ h := nomatch h

def hello : ConversationService.Submission String := ⟨"c", "tenant", "user", "Hello", []⟩

/-- The answers of an environment in which nothing fails. -/
def calmly {cfg : ConversationConfig String} :
    (o : ConversationOp String) → Act cfg.sem.Ans Exn o
  | .nextSequence .. => .done (Answer.ok (1 : Nat))
  | .external _ => .done (Answer.ok "Hi")
  | .suggest .. => .done (Answer.ok ([] : List String))
  | .uuid => .done (Answer.ok "id")
  | .utcNow => .done (Answer.ok (0 : Time))
  | .createTask _ => .done (Answer.ok (0 : Nat))
  | .get .. | .save .. | .appendMessage _ | .updateMessage .. | .messages .. | .pendingMessages _
  | .publish _ | .audit .. | .accepting | .lock | .unlock | .active _ | .begin | .cancelTask _
  | .stopAccepting | .waitTasks .. | .cancelTasks _ => .done (Answer.ok ())

/-- The identifier, or the task, that is given out next. -/
def idIs {cfg : ConversationConfig String} (id : String) :
    (o : ConversationOp String) → Act cfg.sem.Ans Exn o
  | .uuid => .done (Answer.ok id)
  | o => calmly o

def taskIs {cfg : ConversationConfig String} (d : Nat) :
    (o : ConversationOp String) → Act cfg.sem.Ans Exn o
  | .createTask _ => .done (Answer.ok d)
  | o => calmly o

/-- `n` awaits of task `t` in that environment. -/
def calm {cfg : ConversationConfig String} (t n : Nat) : List (Move cfg.sem.Ans Exn) :=
  List.replicate n (.run t calmly)

/-- Call `t` submits a message, up to its first append. -/
def asks {cfg : ConversationConfig String} (t : Nat) (u : String) : List (Move cfg.sem.Ans Exn) :=
  .enter t :: calm t 4 ++ [.run t (idIs u), .run t calmly, .run t calmly]

/-- … and then goes through, with the response `d`. -/
def submits {cfg : ConversationConfig String} (t d : Nat) (u a : String) :
    List (Move cfg.sem.Ans Exn) :=
  asks t u ++ [.run t (idIs a)] ++ calm t 4 ++ [.run t (taskIs d), .run t calmly]

end TalkSample

end TracciaRuntime
