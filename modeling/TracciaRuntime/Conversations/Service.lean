/-
  Traccia Runtime formalization — the conversation service (`conversations/service.py`).

  * `ConversationOp`: the operations that the service awaits, on the store, the event bus, the
    audit log and the event loop, and the calls into handlers and follow-up providers;
  * `ConversationHandler`: a handler only awaits calls of its own and the events that it emits;
  * `ConversationService.submit`, `update`, `cancel`, `recover`, `shutdown` and the task
    `respond` that a submit creates.
-/
import TracciaRuntime.Async.Prog
import TracciaRuntime.Conversations.Contracts

namespace TracciaRuntime

open Py Async

variable {V : Type}

/-- `getattr(exc, "retryable", False)`. -/
def Exn.retryable : Exn → Bool
  | provider _ _ retryable => retryable
  | _ => false

/-- What `_respond` is called with. -/
structure Turn (V : Type) where
  conversation : Conversation
  userMessage : ConversationMessage V
  assistantMessage : ConversationMessage V
  deriving DecidableEq

/-- The places where a message is updated. -/
inductive UpdateSite where
  | streaming | result | cancelled | failed | recovered
  deriving DecidableEq

inductive ConversationOp (V : Type) where
  -- store
  | get (conversationId tenantId : String)
  | save (c : Conversation) (expectedVersion : Nat)
  | appendMessage (m : ConversationMessage V)
  | updateMessage (site : UpdateSite) (m : ConversationMessage V)
  | messages (conversationId tenantId : String) (limit : Nat)
  | pendingMessages (limit : Nat)
  -- event bus and audit log; the sequence is asked for an event of this type and message
  | nextSequence (conversationId type : String) (messageId : Option String)
  | publish (e : ConversationEvent V)
  | audit (action outcome tenantId actorId resourceId : String) (messageId : Option String)
  -- pluggable components
  | external (call : V)
  | suggest (t : Turn V) (outputText : String)
  -- identifiers, clock, event loop
  | uuid
  | utcNow
  | accepting
  | lock
  | unlock
  | active (conversationId : String)
  | createTask (t : Turn V)
  /-- the first step of a task -/
  | begin
  | cancelTask (conversationId : String)
  | stopAccepting
  | waitTasks (tasks : List Nat) (timeout : Bool)
  | cancelTasks (tasks : List Nat)

namespace ConversationOp

abbrev Resp : ConversationOp V → Type
  | get .. => Option Conversation
  | save .. => Conversation
  | appendMessage _ | updateMessage .. => Unit
  | messages .. | pendingMessages _ => List (ConversationMessage V)
  | nextSequence .. => Nat
  | publish _ | audit .. => Unit
  | external _ => V
  | suggest .. => List String
  | uuid => String
  | utcNow => Time
  | accepting | active _ => Bool
  | lock | unlock | createTask _ | begin | cancelTask _ | waitTasks .. => Unit
  | stopAccepting | cancelTasks _ => List Nat

end ConversationOp

/-- The programs of the service. -/
abbrev Talk (V α : Type) := Prog (ConversationOp.Resp (V := V)) Exn α

/-- `await` one operation. -/
abbrev attend (o : ConversationOp V) : Talk V o.Resp := Prog.call o

/-- A handler; what it awaits besides its own calls it awaits by emitting events. -/
structure ConversationHandler (V : Type) where
  handle : Turn V → List (ConversationMessage V) → (String → Dict String V → Talk V Unit) →
    Talk V (ConversationTurnResult V)
  uses : ∀ (P : ConversationOp V → Prop) t history emit, (∀ call, P (.external call)) →
    (∀ type data, (emit type data).Uses P) → (handle t history emit).Uses P

/-- What the service is wired with. -/
structure ConversationConfig (V : Type) where
  /-- the process a task runs in -/
  proc : Nat → Nat := fun _ => 0
  handlers : Dict String (ConversationHandler V)
  /-- there is an audit log -/
  audits : Bool := true
  /-- there is a follow-up provider -/
  followups : Bool := false
  /-- `redact` -/
  redact : Dict String V → Dict String V
  /-- `presentation.unexpected_error_message` -/
  unexpectedErrorMessage : Exn → String
  /-- the identifiers of the span of the turn, if it has one -/
  traceContext : Option V := none
  str : String → V
  bool : Bool → V
  /-- `model_dump` -/
  dump : ConversationMessage V → Dict String V

namespace ConversationService
variable (cfg : ConversationConfig V)

/-- `_emit`. -/
def emit (c : Conversation) (type : String) (data : Dict String V)
    (messageId : Option String := none) : Talk V Unit := do
  let sequence ← attend (.nextSequence c.id type messageId)
  attend (.publish ⟨type, c.id, c.tenantId, messageId, sequence, data⟩)
  if cfg.audits then
    attend (.audit type (if type.endsWith ".failed" then "failed" else "ok") c.tenantId c.userId
      c.id messageId)
  else pure ()

/-- `get`. -/
def get (conversationId tenantId : String) : Talk V Conversation := do
  let found ← attend (.get conversationId tenantId)
  match found with
  | some c => pure c
  | none => throw (.notFound s!"conversation '{conversationId}' not found")

/-- `update`. -/
def update (conversationId tenantId userId : String) (title : Option String)
    (status : Option ConversationStatus) : Talk V Conversation := do
  let c ← get conversationId tenantId
  Prog.raiseIf (c.userId ≠ userId) (.notFound s!"conversation '{conversationId}' not found")
  let c := { c with title := (title.map strip).getD c.title, status := status.getD c.status }
  let c ← attend (.save c c.version)
  emit cfg c "conversation.updated" [("title", cfg.str c.title),
    ("status", cfg.str (if c.status = .active then "active" else "archived"))]
  pure c

/-! ## `submit` -/

structure Submission (V : Type) where
  conversationId : String
  tenantId : String
  userId : String
  text : String
  metadata : Dict String V := []

/-- A conversation with the default title gets the text as its title. -/
def retitle (c : Conversation) (text : String) : Talk V Conversation :=
  if c.title = "New conversation" then
    attend (.save { c with title := ((strip text).take 80).toString } c.version)
  else pure c

/-- What `submit` does while it holds the lock. -/
def accept (x : Submission V) (c : Conversation) :
    Talk V (ConversationMessage V × ConversationMessage V) := do
  let active ← attend (.active x.conversationId)
  Prog.raiseIf active (.conflict .activeResponse)
  let userId ← attend .uuid
  let userAt ← attend .utcNow
  let userMessage : ConversationMessage V :=
    { id := userId, conversationId := c.id, tenantId := x.tenantId, role := .user
      content := [.text (strip x.text)], metadata := cfg.redact x.metadata, createdAt := userAt }
  attend (.appendMessage userMessage)
  let id ← attend .uuid
  let createdAt ← attend .utcNow
  let assistantMessage : ConversationMessage V :=
    { id, conversationId := c.id, tenantId := x.tenantId, role := .assistant, content := []
      status := .accepted, replyToMessageId := some userId, createdAt }
  attend (.appendMessage assistantMessage)
  let c ← retitle c x.text
  emit cfg c "conversation.message.accepted"
    [("role", cfg.str "user"), ("text", cfg.str (strip x.text))] (some userId)
  attend (.createTask ⟨c, userMessage, assistantMessage⟩)
  pure (userMessage, assistantMessage)

/-- `submit`. -/
def submit (x : Submission V) : Talk V (ConversationMessage V × ConversationMessage V) := do
  let accepting ← attend .accepting
  Prog.raiseIf (!accepting) (.conflict .conversationDraining)
  Prog.raiseIf (strip x.text = "") (.valueError "message cannot be empty")
  let c ← get x.conversationId x.tenantId
  Prog.raiseIf (c.userId ≠ x.userId) (.notFound s!"conversation '{x.conversationId}' not found")
  attend .lock
  (accept cfg x c).ensure (attend .unlock)

/-! ## The response -/

section
variable (t : Turn V)

/-- The `emit` of a response. -/
def emitFor (type : String) (data : Dict String V) : Talk V Unit :=
  emit cfg t.conversation type data (some t.assistantMessage.id)

/-- `streaming`. -/
def streaming : ConversationMessage V := { t.assistantMessage with status := .streaming }

def suggestFollowups (r : ConversationTurnResult V) : Talk V (List String) :=
  if r.suggestedFollowups = [] ∧ r.outcome = .completed ∧ cfg.followups then
    tryCatch (attend (.suggest t r.outputText)) fun e =>
      if e.isException then pure r.suggestedFollowups else throw e
  else pure r.suggestedFollowups

/-- `completed`. -/
def completed (r : ConversationTurnResult V) (followups : List String) : ConversationMessage V :=
  { streaming t with
    content := r.content
    status := if r.outcome = .failed then .failed else .completed
    runIds := r.runIds
    artifacts := r.artifacts
    citations := r.citations
    suggestedFollowups := followups
    metadata := match cfg.traceContext with
      | some c => (cfg.redact r.metadata).set "runtime_trace_context" c
      | none => cfg.redact r.metadata }

/-- The `try` block. -/
def reply : Talk V Unit := do
  let history ← attend (.messages t.conversation.id t.conversation.tenantId 1000)
  let handler ← Prog.lift (match cfg.handlers.get t.conversation.handler with
    | some h => .ok h
    | none => .error (.notFound
        s!"conversation handler '{t.conversation.handler}' is not registered"))
  let result ← handler.handle t history (emitFor cfg t)
  let followups ← suggestFollowups cfg t result
  let message := completed cfg t result followups
  attend (.updateMessage .result message)
  if result.outcome = .failed then
    emitFor cfg t "assistant.message.failed"
      ((cfg.dump message).set "message" (cfg.str result.outputText))
  else emitFor cfg t "assistant.message.completed" (cfg.dump message)

/-- The handlers of its exceptions. -/
def recoverReply (e : Exn) : Talk V Unit :=
  if e.isException then do
    let text := cfg.unexpectedErrorMessage e
    attend (.updateMessage .failed { streaming t with
      status := .failed
      content := [.text text]
      metadata := [("error_type", cfg.str e.typeName), ("retryable", cfg.bool e.retryable)] })
    emitFor cfg t "assistant.message.failed" [("error_type", cfg.str e.typeName),
      ("message", cfg.str text), ("retryable", cfg.bool e.retryable)]
  else do
    attend (.updateMessage .cancelled { streaming t with
      status := .cancelled, content := [.text "Response cancelled."] })
    emitFor cfg t "assistant.message.cancelled" []
    throw e

/-- `_respond`: the task, from its first step. -/
def respond : Talk V Unit := do
  attend .begin
  attend (.updateMessage .streaming (streaming t))
  emitFor cfg t "assistant.message.started" []
  tryCatch (reply cfg t) (recoverReply cfg t)

end

/-! ## `cancel`, `recover`, `shutdown` -/

/-- `cancel`. -/
def cancel (conversationId tenantId : String) : Talk V Unit := do
  let _ ← get conversationId tenantId
  attend (.cancelTask conversationId)

def interrupted (m : ConversationMessage V) : ConversationMessage V :=
  { m with
    status := .failed
    content := [.text "The response was interrupted during a service restart. Please retry."]
    metadata := [("error_type", cfg.str "InterruptedResponse")] }

/-- One message of `recover`; `true` if it has been failed. -/
def recoverMessage (m : ConversationMessage V) : Talk V Bool := do
  let found ← attend (.get m.conversationId m.tenantId)
  match found with
  | none => pure false
  | some c => do
    attend (.updateMessage .recovered (interrupted cfg m))
    emit cfg c "assistant.message.failed"
      [("error_type", cfg.str "InterruptedResponse"), ("retryable", cfg.bool true)] (some m.id)
    pure true

def recoverAll : List (ConversationMessage V) → Nat → Talk V Nat
  | [], recovered => pure recovered
  | m :: rest, recovered => do
    let failed ← recoverMessage cfg m
    recoverAll rest (if failed then recovered + 1 else recovered)

/-- `recover`. -/
def recover (limit : Nat) : Talk V Nat := do
  let pending ← attend (.pendingMessages limit)
  recoverAll cfg pending 0

/-- `shutdown`. -/
def shutdown : Talk V Unit := do
  let tasks ← attend .stopAccepting
  if tasks = [] then pure ()
  else do
    attend (.waitTasks tasks true)
    let pending ← attend (.cancelTasks tasks)
    if pending = [] then pure () else attend (.waitTasks pending false)

end ConversationService

end TracciaRuntime
