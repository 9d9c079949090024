/-
  Traccia Runtime formalization — the listings of the conversation stores
  (`conversations/stores.py`: `list` and `messages`), and the feedback on messages
  (`conversations/feedback.py`, `persistence/migrations/004_conversation_feedback.sql`).

  The tables of the database hold the conversations, and the messages by their ordinals, with the
  columns that the statements read; what `ORDER BY` leaves open is a relation.

  * `FeedbackRequest.feedback`: what `record_feedback` puts into the store;
  * `InMemoryConversationFeedbackStore`, `PostgresConversationFeedbackStore`: the two stores, and
    `record` on each of them.

  A conversation and a message that get feedback exist, so that the references of a row are met.
  The span and the audit event are left out.
-/
import TracciaRuntime.Conversations.Contracts
import Mathlib.Algebra.Order.Ring.Rat
import TracciaRuntime.Security.Redaction

namespace TracciaRuntime

open Py

variable {V : Type}

/-- A conversation with its `updated_at`. -/
structure StampedConversation extends Conversation where
  updatedAt : Time
  deriving DecidableEq

/-- `before is None or t < before`; in SQL, `before IS NULL OR t < before`. -/
def precedes (before : Option Time) (t : Time) : Bool := before.all fun b => t < b

/-! ## In memory -/

structure InMemoryConversationStore (V : Type) where
  conversations : Dict String StampedConversation := []
  messageLists : Dict String (List (ConversationMessage V)) := []

namespace InMemoryConversationStore
variable (s : InMemoryConversationStore V)

/-- The conversations of a user. -/
def ofUser (tenantId userId : String) : List StampedConversation :=
  s.conversations.values.filter fun item => item.tenantId = tenantId ∧ item.userId = userId

/-- The messages of a conversation. -/
def ofConversation (conversationId tenantId : String) : List (ConversationMessage V) :=
  ((s.messageLists.get conversationId).getD []).filter fun item => item.tenantId = tenantId

def list (tenantId userId : String) (limit : Nat) (before : Option Time) :
    List StampedConversation :=
  let items := s.conversations.values.filter fun item =>
    (item.tenantId = tenantId ∧ item.userId = userId) ∧ precedes before item.updatedAt
  (items.insertionSort fun a b => b.updatedAt ≤ a.updatedAt).take limit

def messages (conversationId tenantId : String) (limit : Nat) (before : Option Time) :
    List (ConversationMessage V) :=
  let items := ((s.messageLists.get conversationId).getD []).filter fun item =>
    item.tenantId = tenantId ∧ precedes before item.createdAt
  -- a slice that begins at `-0` is the whole list
  if limit = 0 then items else items.drop (items.length - limit)

end InMemoryConversationStore

/-! ## In the database -/

/-- The rows of `traccia_runtime_conversations`, and those of
    `traccia_runtime_conversation_messages` in the order of their ordinals. -/
structure PostgresConversationStore (V : Type) where
  conversations : List StampedConversation := []
  messageRows : List (ConversationMessage V) := []

namespace PostgresConversationStore
variable (s : PostgresConversationStore V)

/-- The conversations of a user. -/
def ofUser (tenantId userId : String) : List StampedConversation :=
  s.conversations.filter fun row => row.tenantId = tenantId ∧ row.userId = userId

/-- The messages of a conversation. -/
def ofConversation (conversationId tenantId : String) : List (ConversationMessage V) :=
  s.messageRows.filter fun row => row.conversationId = conversationId ∧ row.tenantId = tenantId

/-- An answer of `list`: rows with the same `updated_at` come in any order. -/
def Lists (tenantId userId : String) (limit : Nat) (before : Option Time)
    (answer : List StampedConversation) : Prop :=
  ∃ rows : List StampedConversation,
    rows.Perm (s.conversations.filter fun row =>
      (row.tenantId = tenantId ∧ row.userId = userId) ∧ precedes before row.updatedAt) ∧
    rows.Pairwise (fun a b => b.updatedAt ≤ a.updatedAt) ∧ answer = rows.take limit

def messages (conversationId tenantId : String) (limit : Nat) (before : Option Time) :
    List (ConversationMessage V) :=
  let rows := s.messageRows.filter fun row =>
    (row.conversationId = conversationId ∧ row.tenantId = tenantId) ∧ precedes before row.createdAt
  (rows.reverse.take limit).reverse

end PostgresConversationStore

/-! ## Feedback -/

inductive FeedbackRating where
  | up | down
  deriving DecidableEq

structure ConversationFeedback where
  id : String
  tenantId : String
  userId : String
  conversationId : String
  messageId : String
  rating : FeedbackRating
  category : Option String := none
  category_short : ∀ c ∈ category, c.length ≤ 100 := by simp
  comment : Option String := none
  comment_short : ∀ c ∈ comment, c.length ≤ 2000 := by simp
  tags : List String := []
  tags_few : tags.length ≤ 20 := by decide
  runIds : List String := []
  createdAt : Time
  updatedAt : Time
  deriving DecidableEq

/-- The tenant, the user and the message. -/
abbrev FeedbackKey := String × String × String

def ConversationFeedback.key (f : ConversationFeedback) : FeedbackKey :=
  (f.tenantId, f.userId, f.messageId)

/-! ### Requests -/

/-- A call of `record_feedback`, and what the new feedback gets by default. -/
structure FeedbackRequest (V : Type) where
  conversation : Conversation
  message : ConversationMessage V
  userId : String
  rating : FeedbackRating
  category : Option String := none
  comment : Option String := none
  tags : List String := []
  id : String
  createdAt : Time
  updatedAt : Time

/-- `value.strip() if value and value.strip() else None`. -/
def stripped (value : Option String) : Option String := (value.map strip).filter (· ≠ "")

/-- `tuple(dict.fromkeys(tag.strip()[:100] for tag in tags if tag.strip()))`. -/
def cleanedTags (tags : List String) : List String :=
  Dict.keys (((tags.map strip).filter (· ≠ "")).foldl
    (fun d tag => d.set (String.ofList (tag.toList.take 100)) ()) ([] : Dict String Unit))

/-- `record_feedback`, up to the call of `put`. -/
def FeedbackRequest.feedback (r : FeedbackRequest V) : Except Exn ConversationFeedback :=
  if r.message.conversationId ≠ r.conversation.id ∨ r.message.role ≠ .assistant then
    .error (.notFound s!"assistant message '{r.message.id}' not found")
  else
    let category := stripped r.category
    let comment := (stripped r.comment).map Redaction.redactText
    if h : (∀ c ∈ category, c.length ≤ 100) ∧ ∀ c ∈ comment, c.length ≤ 2000 then
      .ok {
        id := r.id
        tenantId := r.conversation.tenantId
        userId := r.userId
        conversationId := r.conversation.id
        messageId := r.message.id
        rating := r.rating
        category := category
        category_short := h.1
        comment := comment
        comment_short := h.2
        tags := (cleanedTags r.tags).take 20
        tags_few := List.length_take_le _ _
        runIds := r.message.runIds
        createdAt := r.createdAt
        updatedAt := r.updatedAt }
    else .error (.other "ValidationError")

/-! ### In memory -/

structure InMemoryConversationFeedbackStore where
  items : Dict FeedbackKey ConversationFeedback := []

namespace InMemoryConversationFeedbackStore
variable (s : InMemoryConversationFeedbackStore)

/-- What `put` stores: the first feedback keeps its id and its `created_at`. -/
def saved (now : Time) (feedback : ConversationFeedback) : ConversationFeedback :=
  match s.items.get feedback.key with
  | some current =>
    { feedback with id := current.id, createdAt := current.createdAt, updatedAt := now }
  | none => { feedback with updatedAt := now }

def put (now : Time) (feedback : ConversationFeedback) : InMemoryConversationFeedbackStore :=
  ⟨s.items.set feedback.key (s.saved now feedback)⟩

def get (tenantId userId messageId : String) : Option ConversationFeedback :=
  s.items.get (tenantId, userId, messageId)

def listForConversation (tenantId userId conversationId : String) : List ConversationFeedback :=
  (s.items.values.filter fun item => item.tenantId = tenantId ∧ item.userId = userId ∧
    item.conversationId = conversationId).insertionSort fun a b => a.createdAt ≤ b.createdAt

/-- `record_feedback`. -/
def record (s : InMemoryConversationFeedbackStore) (now : Time) (r : FeedbackRequest V) :
    Except Exn ConversationFeedback × InMemoryConversationFeedbackStore :=
  match r.feedback with
  | .error e => (.error e, s)
  | .ok feedback => (.ok (s.saved now feedback), s.put now feedback)

/-- A sequence of calls, each with the time at which it is stored. -/
def recordAll (s : InMemoryConversationFeedbackStore) : List (Time × FeedbackRequest V) →
    List (Except Exn ConversationFeedback) × InMemoryConversationFeedbackStore
  | [] => ([], s)
  | (now, r) :: requests =>
    let (answer, s') := s.record now r
    let (answers, s'') := recordAll s' requests
    (answer :: answers, s'')

end InMemoryConversationFeedbackStore

/-! ### In the database -/

/-- A row of `traccia_runtime_conversation_feedback`. -/
structure FeedbackRow where
  id : String
  tenantId : String
  userId : String
  conversationId : String
  messageId : String
  feedback : ConversationFeedback
  createdAt : Time
  updatedAt : Time

namespace FeedbackRow

def key (row : FeedbackRow) : FeedbackKey := (row.tenantId, row.userId, row.messageId)

/-- What `get` makes of a row. -/
def read (row : FeedbackRow) : ConversationFeedback :=
  { row.feedback with id := row.id, createdAt := row.createdAt, updatedAt := row.updatedAt }

/-- `DO UPDATE SET feedback=EXCLUDED.feedback, updated_at=EXCLUDED.updated_at`. -/
def update (row : FeedbackRow) (feedback : ConversationFeedback) : FeedbackRow :=
  { row with feedback := feedback, updatedAt := feedback.updatedAt }

/-- The row to insert. -/
def of (feedback : ConversationFeedback) : FeedbackRow where
  id := feedback.id
  tenantId := feedback.tenantId
  userId := feedback.userId
  conversationId := feedback.conversationId
  messageId := feedback.messageId
  feedback := feedback
  createdAt := feedback.createdAt
  updatedAt := feedback.updatedAt

end FeedbackRow

structure PostgresConversationFeedbackStore where
  rows : List FeedbackRow := []

namespace PostgresConversationFeedbackStore
variable (s : PostgresConversationFeedbackStore)

/-- The row of a key; there is one at most. -/
def find (key : FeedbackKey) : Option FeedbackRow := s.rows.find? fun row => row.key = key

/-- `INSERT … ON CONFLICT (tenant_id,user_id,message_id) DO UPDATE … RETURNING …`; the answer has
    the id and the times of the row. -/
def put (feedback : ConversationFeedback) :
    Except Exn (ConversationFeedback × PostgresConversationFeedbackStore) :=
  match s.find feedback.key with
  | some row => .ok ((row.update feedback).read, ⟨s.rows.map fun row =>
      if row.key = feedback.key then row.update feedback else row⟩)
  | none =>
    if ∃ row ∈ s.rows, row.id = feedback.id then .error (.other "UniqueViolationError")
    else .ok ((FeedbackRow.of feedback).read, ⟨s.rows ++ [.of feedback]⟩)

def get (tenantId userId messageId : String) : Option ConversationFeedback :=
  (s.find (tenantId, userId, messageId)).map FeedbackRow.read

/-- An answer of `list_for_conversation`: rows with the same `created_at` come in any order. -/
def Lists (tenantId userId conversationId : String) (answer : List ConversationFeedback) : Prop :=
  ∃ rows : List FeedbackRow,
    rows.Perm (s.rows.filter fun row => row.tenantId = tenantId ∧ row.userId = userId ∧
      row.conversationId = conversationId) ∧
    rows.Pairwise (fun a b => a.createdAt ≤ b.createdAt) ∧ answer = rows.map FeedbackRow.read

/-- `record_feedback`. -/
def record (s : PostgresConversationFeedbackStore) (r : FeedbackRequest V) :
    Except Exn ConversationFeedback × PostgresConversationFeedbackStore :=
  match r.feedback with
  | .error e => (.error e, s)
  | .ok feedback =>
    match s.put feedback with
    | .error e => (.error e, s)
    | .ok (saved, s') => (.ok saved, s')

def recordAll (s : PostgresConversationFeedbackStore) : List (FeedbackRequest V) →
    List (Except Exn ConversationFeedback) × PostgresConversationFeedbackStore
  | [] => ([], s)
  | r :: requests =>
    let (answer, s') := s.record r
    let (answers, s'') := recordAll s' requests
    (answer :: answers, s'')

end PostgresConversationFeedbackStore

end TracciaRuntime
