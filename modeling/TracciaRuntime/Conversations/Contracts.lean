/-
  Traccia Runtime formalization — conversations and their messages
  (`conversations/contracts.py`, `conversations/stores.py`).

  * `Conversation`, `ConversationMessage`, `ConversationTurnResult`, `ConversationEvent`;
  * `ConversationStore`: the in-memory store, with its methods as functions.
-/
import TracciaRuntime.Types
import Mathlib.Data.List.Sort

namespace TracciaRuntime

open Py

variable {V : Type}

/-- A block of a message; `other` are the blocks without a text. -/
inductive ConversationBlock (V : Type) where
  | text (text : String)
  | notice (level text : String)
  | other (block : V)
  deriving DecidableEq

/-- `getattr(block, "text", None)`, if it is truthy. -/
def ConversationBlock.text? : ConversationBlock V → Option String
  | text s | notice _ s => if s = "" then none else some s
  | other _ => none

inductive ConversationStatus where
  | active | archived
  deriving DecidableEq

inductive MessageStatus where
  | accepted | streaming | completed | failed | cancelled
  deriving DecidableEq

/-- The response has ended. -/
def MessageStatus.isFinal : MessageStatus → Bool
  | accepted | streaming => false
  | _ => true

structure Conversation where
  id : String
  tenantId : String
  userId : String
  handler : String := "runtime"
  agent : String
  title : String := "New conversation"
  status : ConversationStatus := .active
  version : Nat := 0
  deriving DecidableEq

structure ConversationMessage (V : Type) where
  id : String
  conversationId : String
  tenantId : String
  role : Role
  content : List (ConversationBlock V)
  status : MessageStatus := .completed
  replyToMessageId : Option String := none
  runIds : List String := []
  artifacts : List String := []
  citations : List (Dict String V) := []
  suggestedFollowups : List String := []
  metadata : Dict String V := []
  createdAt : Time
  deriving DecidableEq

/-- `text_content`: of the text blocks only. -/
def ConversationMessage.textContent (m : ConversationMessage V) : String :=
  "\n".intercalate (m.content.filterMap fun
    | .text s => some s
    | _ => none)

inductive TurnOutcome where
  | completed | failed | blocked | awaitingClarification
  deriving DecidableEq

structure ConversationTurnResult (V : Type) where
  content : List (ConversationBlock V)
  runIds : List String := []
  artifacts : List String := []
  citations : List (Dict String V) := []
  suggestedFollowups : List String := []
  metadata : Dict String V := []
  outcome : TurnOutcome := .completed
  deriving DecidableEq

/-- The text of the blocks. -/
def ConversationTurnResult.outputText (r : ConversationTurnResult V) : String :=
  "\n".intercalate (r.content.filterMap ConversationBlock.text?)

structure ConversationEvent (V : Type) where
  type : String
  conversationId : String
  tenantId : String
  messageId : Option String := none
  sequence : Nat
  data : Dict String V := []
  deriving DecidableEq

/-! ## The store -/

structure ConversationStore (V : Type) where
  conversations : Dict String Conversation := []
  messages : Dict String (List (ConversationMessage V)) := []

namespace ConversationStore
variable (s : ConversationStore V)

def get (conversationId tenantId : String) : Option Conversation :=
  (s.conversations.get conversationId).filter fun c => c.tenantId = tenantId

/-- `save`; the new version is written to the argument, too. -/
def save (c : Conversation) (expectedVersion : Nat) :
    Except Exn (Conversation × ConversationStore V) :=
  if (s.conversations.get c.id).any fun current => current.version = expectedVersion then
    let saved := { c with version := expectedVersion + 1 }
    .ok (saved, { s with conversations := s.conversations.set c.id saved })
  else .error (.conflict (.conversationModified c.id))

/-- `self._messages[conversation_id]`. -/
def messagesOf (conversationId : String) : List (ConversationMessage V) :=
  (s.messages.get conversationId).getD []

def appendMessage (m : ConversationMessage V) : Except Exn (ConversationStore V) :=
  if (s.messagesOf m.conversationId).any fun item => item.id = m.id then
    .error (.conflict (.messageExists m.id))
  else
    let l := s.messagesOf m.conversationId ++ [m]
    .ok { s with messages := s.messages.set m.conversationId l }

/-- The message in the place of the first one with its id and tenant. -/
def replace (m : ConversationMessage V) : List (ConversationMessage V) →
    Option (List (ConversationMessage V))
  | [] => none
  | current :: rest =>
    if current.id = m.id ∧ current.tenantId = m.tenantId then some (m :: rest)
    else (replace m rest).map (current :: ·)

def updateMessage (m : ConversationMessage V) : Except Exn (ConversationStore V) :=
  match replace m (s.messagesOf m.conversationId) with
  | some l => .ok { s with messages := s.messages.set m.conversationId l }
  | none => .error (.conflict (.messageNotFound m.id))

/-- `messages`, without a `before`. -/
def list (conversationId tenantId : String) (limit : Nat) : List (ConversationMessage V) :=
  let items := (s.messagesOf conversationId).filter fun m => m.tenantId = tenantId
  items.drop (items.length - limit)

/-- The messages of all conversations. -/
def all : List (ConversationMessage V) := s.messages.values.flatten

def pendingMessages (limit : Nat) : List (ConversationMessage V) :=
  let pending := s.all.filter fun m =>
    m.role = .assistant ∧ m.status.isFinal = false
  (pending.insertionSort fun a b => a.createdAt ≤ b.createdAt).take limit

/-- The stored message of an id. -/
def message (conversationId id : String) : Option (ConversationMessage V) :=
  (s.messagesOf conversationId).find? fun m => m.id = id

end ConversationStore

end TracciaRuntime
