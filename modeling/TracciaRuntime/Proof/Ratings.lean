/-
  The two stores of feedback.

  * `standing`: the rating that stands for a user and a message, by what was rated; `get_standing`:
    it is what the store in memory holds;
  * `Agree`: the rows of the table are the items of the dictionary, but for `updated_at`;
  * `feedback_stores_agree`: so calls have the same answers on both stores, and both list the
    same feedback by `created_at`.
-/
import TracciaRuntime.Conversations.Stores

namespace TracciaRuntime

open Py

variable {V : Type}

/-- The feedback without `updated_at`, for which one store takes the time of the call and the
    other one the time at which the feedback was made. -/
def ConversationFeedback.content (f : ConversationFeedback) : ConversationFeedback :=
  { f with updatedAt := 0 }

/-! ## What stands -/

/-- The feedback that calls put into the store, with the times of the calls. -/
def accepted (requests : List (Time × FeedbackRequest V)) : List (Time × ConversationFeedback) :=
  requests.filterMap fun r => r.2.feedback.toOption.map fun f => (r.1, f)

/-- The last feedback of a key, under the id and the `created_at` of its first one. -/
def standing (l : List (Time × ConversationFeedback)) (k : FeedbackKey) :
    Option ConversationFeedback :=
  let rated := l.filter fun x => x.2.key = k
  match rated.head?, rated.getLast? with
  | some first, some last => some { last.2 with
      id := first.2.id
      createdAt := first.2.createdAt
      updatedAt := last.1 }
  | _, _ => none

theorem standing_concat (l : List (Time × ConversationFeedback)) (x : Time × ConversationFeedback)
    (k : FeedbackKey) : standing (l ++ [x]) k =
      if x.2.key = k then
        some { x.2 with
          id := ((standing l k).getD x.2).id
          createdAt := ((standing l k).getD x.2).createdAt
          updatedAt := x.1 }
      else standing l k := by
  unfold standing
  split
  · rename_i hk
    simp only [List.filter_append, hk, List.filter_cons, List.filter_nil, decide_true, if_true]
    cases hl : l.filter fun y => y.2.key = k with
    | nil => simp
    | cons first rest => simp [List.getLast?_cons]
  · rename_i hk
    simp [List.filter_append, hk]

namespace InMemoryConversationFeedbackStore

variable {s : InMemoryConversationFeedbackStore}

theorem recordAll_append (s : InMemoryConversationFeedbackStore)
    (l l' : List (Time × FeedbackRequest V)) : (s.recordAll (l ++ l')).2 =
      ((s.recordAll l).2.recordAll l').2 := by
  induction l generalizing s with
  | nil => rfl
  | cons r l ih => exact ih _

theorem get_put (s : InMemoryConversationFeedbackStore) (now : Time) (f : ConversationFeedback)
    (k : FeedbackKey) : (s.put now f).items.get k =
      if f.key = k then
        some { f with
          id := ((s.items.get k).getD f).id
          createdAt := ((s.items.get k).getD f).createdAt
          updatedAt := now }
      else s.items.get k := by
  rw [put, Dict.get_set]
  by_cases hk : f.key = k
  · subst hk
    rw [if_pos rfl, if_pos rfl, saved]
    cases s.items.get f.key with
    | none => rfl
    | some current => rfl
  · rw [if_neg (Ne.symm hk), if_neg hk]

/-- **The store holds what stands**: for each user and message the last feedback, under the id
    and the `created_at` of the first one. -/
theorem get_standing (requests : List (Time × FeedbackRequest V)) (k : FeedbackKey) :
    (recordAll {} requests).2.items.get k = standing (accepted requests) k := by
  induction requests using List.reverseRecOn with
  | nil => rfl
  | append_singleton requests r ih =>
    rw [recordAll_append]
    simp only [recordAll, record]
    cases hr : r.2.feedback with
    | error e =>
      have hsame : accepted (requests ++ [r]) = accepted requests := by
        simp [accepted, hr, Except.toOption]
      rw [hsame]
      exact ih
    | ok f =>
      have hnew : accepted (requests ++ [r]) = accepted requests ++ [(r.1, f)] := by
        simp [accepted, hr, Except.toOption]
      rw [hnew, standing_concat, get_put, ih]

end InMemoryConversationFeedbackStore

/-! ## Rows and items -/

/-- The row holds the item. -/
structure FeedbackRow.Holds (i : FeedbackKey × ConversationFeedback) (row : FeedbackRow) : Prop where
  key : row.key = i.1
  item : i.2.key = i.1
  conversationId : row.conversationId = i.2.conversationId
  content : row.read.content = i.2.content

/-- The rows are the items of the dictionary, in their order. -/
abbrev Agree (items : Dict FeedbackKey ConversationFeedback) (rows : List FeedbackRow) : Prop :=
  List.Forall₂ FeedbackRow.Holds items rows

namespace Agree

variable {items : Dict FeedbackKey ConversationFeedback} {rows : List FeedbackRow} {k : FeedbackKey}

/-- A key has an item and a row, or neither. -/
theorem find_cases (h : Agree items rows) (k : FeedbackKey) :
    (items.get k = none ∧ rows.find? (fun row => row.key = k) = none) ∨
      ∃ f row, items.get k = some f ∧ rows.find? (fun row => row.key = k) = some row ∧
        row.Holds (k, f) := by
  induction h with
  | nil => exact .inl ⟨rfl, rfl⟩
  | @cons i row items rows hrow _ ih =>
    obtain ⟨k₀, f⟩ := i
    have hkey : row.key = k₀ := hrow.key
    by_cases hk : k₀ = k
    · subst hk
      exact .inr ⟨f, row, by simp [Dict.get], by simp [hkey], hrow⟩
    · simpa [Dict.get, hk, hkey] using ih

/-- The item and the row of a key change. -/
theorem update (h : Agree items rows) (hnodup : items.keys.Nodup) {f saved : ConversationFeedback}
    (hf : items.get k = some f) {change : FeedbackRow → FeedbackRow}
    (hchange : ∀ row, row.Holds (k, f) → (change row).Holds (k, saved)) :
    Agree (items.set k saved) (rows.map fun row => if row.key = k then change row else row) := by
  induction h with
  | nil => cases hf
  | @cons i row items rows hrow hrest ih =>
    obtain ⟨k₀, f₀⟩ := i
    obtain ⟨hnew, hnodup⟩ := List.nodup_cons.1 (show (k₀ :: Dict.keys items).Nodup from hnodup)
    have hkey : row.key = k₀ := hrow.key
    by_cases hk : k₀ = k
    · subst hk
      have hheld : f₀ = f := by simpa [Dict.get] using hf
      subst hheld
      have hothers : rows.map (fun row => if row.key = k₀ then change row else row) = rows := by
        rw [List.map_congr_left (g := id), List.map_id]
        intro row' hrow'
        obtain ⟨i, hi, hheld⟩ := exists_of_mem_right hrest hrow'
        have hne : row'.key ≠ k₀ := fun heq =>
          hnew (List.mem_map.2 ⟨i, hi, hheld.key.symm.trans heq⟩)
        simp [hne]
      rw [List.map_cons, if_pos hkey, hothers, Dict.set, if_pos rfl]
      exact .cons (hchange row hrow) hrest
    · have hne : row.key ≠ k := by rwa [hkey]
      rw [List.map_cons, if_neg hne, Dict.set, if_neg hk]
      refine .cons hrow (ih hnodup ?_)
      simpa [Dict.get, hk] using hf

theorem insert (h : Agree items rows) (hnone : items.get k = none) {saved : ConversationFeedback}
    {row : FeedbackRow} (hrow : row.Holds (k, saved)) :
    Agree (items.set k saved) (rows ++ [row]) := by
  rw [Dict.set_of_get_none hnone]
  exact List.rel_append h (.cons hrow .nil)

end Agree

/-! ## Calls -/

namespace PostgresConversationFeedbackStore

variable {db : PostgresConversationFeedbackStore} {f : ConversationFeedback}

theorem put_new (hfind : db.find f.key = none) (hfresh : ∀ row ∈ db.rows, row.id ≠ f.id) :
    db.put f = .ok ((FeedbackRow.of f).read, ⟨db.rows ++ [.of f]⟩) := by
  have hno : ¬ ∃ row ∈ db.rows, row.id = f.id := fun ⟨row, hrow, heq⟩ => hfresh row hrow heq
  unfold put
  rw [hfind]
  exact if_neg hno

theorem put_known {row : FeedbackRow} (hfind : db.find f.key = some row) :
    db.put f = .ok ((row.update f).read, ⟨db.rows.map fun row =>
      if row.key = f.key then row.update f else row⟩) := by
  unfold put
  rw [hfind]

end PostgresConversationFeedbackStore

open InMemoryConversationFeedbackStore

/-- What a request puts into the store is about its message. -/
theorem FeedbackRequest.feedback_eq_ok {r : FeedbackRequest V} {f : ConversationFeedback}
    (h : r.feedback = .ok f) : f.id = r.id ∧ f.messageId = r.message.id ∧
      f.conversationId = r.message.conversationId := by
  simp only [feedback] at h
  split at h
  · cases h
  · rename_i hfound
    split at h
    · cases h
      exact ⟨rfl, rfl, (not_not.1 (not_or.1 hfound).1).symm⟩
    · cases h

/-- The two stores after the same calls, in which `ids` were given out. -/
structure Paired (conversationOf : String → String) (ids : List String)
    (s : InMemoryConversationFeedbackStore) (db : PostgresConversationFeedbackStore) : Prop where
  agree : Agree s.items db.rows
  nodup : s.items.keys.Nodup
  ids : ∀ row ∈ db.rows, row.id ∈ ids
  conversations : ∀ k f, s.items.get k = some f →
    f.key = k ∧ f.conversationId = conversationOf f.messageId

section
variable {conversationOf : String → String} {ids : List String}
  {s : InMemoryConversationFeedbackStore} {db : PostgresConversationFeedbackStore}
  {f : ConversationFeedback}

theorem saved_key (now : Time) : (s.saved now f).key = f.key := by
  unfold saved
  split <;> rfl

theorem saved_conversation (now : Time) :
    (s.saved now f).conversationId = f.conversationId := by
  unfold saved
  split <;> rfl

theorem saved_message (now : Time) : (s.saved now f).messageId = f.messageId := by
  unfold saved
  split <;> rfl

theorem Paired.conversations_put (h : Paired conversationOf ids s db) (now : Time)
    (hf : f.conversationId = conversationOf f.messageId) (k : FeedbackKey)
    (g : ConversationFeedback) (hg : (s.put now f).items.get k = some g) :
    g.key = k ∧ g.conversationId = conversationOf g.messageId := by
  rw [put, Dict.get_set] at hg
  split at hg
  · rename_i hk
    cases hg
    rw [saved_key, saved_conversation, saved_message]
    exact ⟨hk.symm, hf⟩
  · exact h.conversations k g hg

/-- **One call.** -/
theorem Paired.put (h : Paired conversationOf ids s db) (now : Time) (hid : f.id ∉ ids)
    (hf : f.conversationId = conversationOf f.messageId) :
    ∃ answer db', db.put f = .ok (answer, db') ∧ answer.content = (s.saved now f).content ∧
      Paired conversationOf (f.id :: ids) (s.put now f) db' := by
  have hkeep : ∀ row ∈ db.rows, row.id ∈ f.id :: ids := fun row hrow =>
    List.mem_cons_of_mem _ (h.ids row hrow)
  have hnodup : (s.put now f).items.keys.Nodup := Dict.nodup_keys_set _ _ h.nodup
  rcases h.agree.find_cases f.key with ⟨hnone, hfind⟩ | ⟨g, row, hg, hfind, hrow⟩
  · have hfresh : ∀ row ∈ db.rows, row.id ≠ f.id := fun row hrow heq =>
      hid (heq ▸ h.ids row hrow)
    have hcontent : (FeedbackRow.of f).read.content = (s.saved now f).content := by
      rw [saved, hnone]
      rfl
    refine ⟨_, _, PostgresConversationFeedbackStore.put_new hfind hfresh, hcontent,
      h.agree.insert hnone ⟨rfl, saved_key now, ?_, hcontent⟩, hnodup, fun row hrow => ?_,
      h.conversations_put now hf⟩
    · exact (saved_conversation now).symm
    · rcases List.mem_append.1 hrow with hrow | hrow
      · exact hkeep row hrow
      · rw [List.mem_singleton.1 hrow]
        exact List.mem_cons_self
  · have hcontent : ∀ row : FeedbackRow, row.Holds (f.key, g) →
        (row.update f).read.content = (s.saved now f).content := by
      intro row hrow
      have hread := hrow.content
      simp only [FeedbackRow.read, ConversationFeedback.content,
        ConversationFeedback.mk.injEq] at hread
      rw [saved, hg]
      simp [FeedbackRow.update, FeedbackRow.read, ConversationFeedback.content, hread]
    obtain ⟨hkey, hconversation⟩ := h.conversations _ g hg
    have hsame : g.messageId = f.messageId := (Prod.mk.inj (Prod.mk.inj hkey).2).2
    refine ⟨_, _, PostgresConversationFeedbackStore.put_known hfind, hcontent row hrow,
      h.agree.update h.nodup hg fun row hrow => ⟨hrow.key, saved_key now, ?_, hcontent row hrow⟩,
      hnodup, fun row hrow => ?_, h.conversations_put now hf⟩
    · -- the column keeps the conversation of the first feedback
      rw [saved_conversation, hf, ← hsame, ← hconversation]
      exact hrow.conversationId
    · obtain ⟨row', hrow', rfl⟩ := List.mem_map.1 hrow
      split
      · exact hkeep row' hrow'
      · exact hkeep row' hrow'

/-- **A sequence of calls.** -/
theorem Paired.recordAll (h : Paired conversationOf ids s db)
    {requests : List (Time × FeedbackRequest V)} (hids : ∀ r ∈ requests, r.2.id ∉ ids)
    (hnodup : (requests.map (·.2.id)).Nodup)
    (hmessages : ∀ r ∈ requests, r.2.message.conversationId = conversationOf r.2.message.id) :
    (s.recordAll requests).1.map (·.map ConversationFeedback.content) =
      (db.recordAll (requests.map (·.2))).1.map (·.map ConversationFeedback.content) ∧
    ∃ ids', Paired conversationOf ids' (s.recordAll requests).2
      (db.recordAll (requests.map (·.2))).2 := by
  induction requests generalizing s db ids with
  | nil => exact ⟨rfl, ids, h⟩
  | cons r requests ih =>
    obtain ⟨now, r⟩ := r
    obtain ⟨hnew, hnodup⟩ := List.nodup_cons.1 hnodup
    have hrest : ∀ r ∈ requests, r.2.message.conversationId = conversationOf r.2.message.id :=
      fun r hr => hmessages r (List.mem_cons_of_mem _ hr)
    have hids' : ∀ r ∈ requests, r.2.id ∉ ids := fun r hr => hids r (List.mem_cons_of_mem _ hr)
    simp only [InMemoryConversationFeedbackStore.recordAll, List.map_cons,
      PostgresConversationFeedbackStore.recordAll, InMemoryConversationFeedbackStore.record,
      PostgresConversationFeedbackStore.record]
    cases hr : r.feedback with
    | error e =>
      obtain ⟨hanswers, hpaired⟩ := ih h hids' hnodup hrest
      exact ⟨congrArg _ hanswers, hpaired⟩
    | ok f =>
      obtain ⟨hid, hmessage, hconversation⟩ := FeedbackRequest.feedback_eq_ok hr
      have hf : f.conversationId = conversationOf f.messageId := by
        rw [hconversation, hmessage]
        exact hmessages (now, r) List.mem_cons_self
      obtain ⟨answer, db', hput, hcontent, hpaired⟩ :=
        h.put now (hid ▸ hids (now, r) List.mem_cons_self) hf
      have hfresh : ∀ r ∈ requests, r.2.id ∉ f.id :: ids := by
        intro r' hr'
        rw [List.mem_cons, not_or]
        exact ⟨fun heq => hnew (List.mem_map.2 ⟨r', hr', heq.trans hid⟩), hids' r' hr'⟩
      obtain ⟨hanswers, hpaired'⟩ := ih hpaired hfresh hnodup hrest
      dsimp only
      rw [hput]
      exact ⟨List.cons_eq_cons.2 ⟨congrArg Except.ok hcontent.symm, hanswers⟩, hpaired'⟩

theorem Agree.get {items : Dict FeedbackKey ConversationFeedback} {rows : List FeedbackRow}
    (h : Agree items rows) (k : FeedbackKey) : (items.get k).map ConversationFeedback.content =
      ((rows.find? fun row => row.key = k).map FeedbackRow.read).map
        ConversationFeedback.content := by
  rcases h.find_cases k with ⟨hnone, hfind⟩ | ⟨f, row, hf, hfind, hrow⟩
  · rw [hnone, hfind]
    rfl
  · rw [hf, hfind]
    exact congrArg some hrow.content.symm

/-- Both stores have the same feedback of a conversation. -/
theorem Agree.filter {items : Dict FeedbackKey ConversationFeedback} {rows : List FeedbackRow}
    (h : Agree items rows) (tenantId userId conversationId : String) :
    (rows.filter fun row => row.tenantId = tenantId ∧ row.userId = userId ∧
      row.conversationId = conversationId).map (fun row => row.read.content) =
    (items.values.filter fun item => item.tenantId = tenantId ∧ item.userId = userId ∧
      item.conversationId = conversationId).map ConversationFeedback.content := by
  induction h with
  | nil => rfl
  | @cons i row items rows hrow _ ih =>
    have hkey : row.key = i.2.key := hrow.key.trans hrow.item.symm
    have htenant : row.tenantId = i.2.tenantId := (Prod.mk.inj hkey).1
    have huser : row.userId = i.2.userId := (Prod.mk.inj (Prod.mk.inj hkey).2).1
    rw [show Dict.values (i :: items) = i.2 :: Dict.values items from rfl, List.filter_cons,
      List.filter_cons, htenant, huser, hrow.conversationId]
    split
    · rw [List.map_cons, List.map_cons, ih, hrow.content]
    · exact ih

end

/-- **The stores of feedback agree.** Whatever is recorded, under distinct new ids and for
    messages of one conversation each, every call has the same answer on both stores but for
    `updated_at`; so has `get`; and both list the same feedback of a conversation by
    `created_at`. -/
theorem feedback_stores_agree (requests : List (Time × FeedbackRequest V))
    (hids : (requests.map (·.2.id)).Nodup) (conversationOf : String → String)
    (hmessages : ∀ r ∈ requests, r.2.message.conversationId = conversationOf r.2.message.id) :
    let memory := InMemoryConversationFeedbackStore.recordAll {} requests
    let table := PostgresConversationFeedbackStore.recordAll {} (requests.map (·.2))
    memory.1.map (·.map ConversationFeedback.content) =
      table.1.map (·.map ConversationFeedback.content) ∧
    (∀ tenantId userId messageId,
      (memory.2.get tenantId userId messageId).map ConversationFeedback.content =
        (table.2.get tenantId userId messageId).map ConversationFeedback.content) ∧
    ∀ tenantId userId conversationId answer,
      table.2.Lists tenantId userId conversationId answer →
        (answer.map ConversationFeedback.content).Perm
          ((memory.2.listForConversation tenantId userId conversationId).map
            ConversationFeedback.content) ∧
        answer.Pairwise (fun a b => a.createdAt ≤ b.createdAt) ∧
        (memory.2.listForConversation tenantId userId conversationId).Pairwise
          fun a b => a.createdAt ≤ b.createdAt := by
  intro memory table
  have hempty : Paired conversationOf [] {} {} :=
    ⟨.nil, List.nodup_nil, fun row hrow => by (cases hrow), fun k f hf => by (cases hf)⟩
  obtain ⟨hanswers, ids', hpaired⟩ :=
    hempty.recordAll (fun r _ hr => by (cases hr)) hids hmessages
  refine ⟨hanswers, fun tenantId userId messageId => hpaired.agree.get _,
    fun tenantId userId conversationId answer hanswer => ?_⟩
  obtain ⟨rows, hperm, hsorted, rfl⟩ := hanswer
  refine ⟨?_, List.pairwise_map.2 hsorted, ?_⟩
  · rw [List.map_map]
    refine (hperm.map _).trans ?_
    have hsame := hpaired.agree.filter tenantId userId conversationId
    rw [show (ConversationFeedback.content ∘ FeedbackRow.read) =
      fun row => row.read.content from rfl, hsame]
    exact ((List.perm_insertionSort _ _).map _).symm
  · exact List.pairwise_insertionSort _ _

namespace Sample

def answer : ConversationMessage Unit where
  id := "m"
  conversationId := "c"
  tenantId := "tenant"
  role := .assistant
  content := [.text "42"]
  createdAt := 0

/-- A rating of the answer. -/
def rated (rating : FeedbackRating) (id : String) (time : Time) : FeedbackRequest Unit where
  conversation := { id := "c", tenantId := "tenant", userId := "user", agent := "agent" }
  message := answer
  userId := "user"
  rating := rating
  id := id
  createdAt := time
  updatedAt := time

/-- The user changes the rating. -/
def ratings : List (Time × FeedbackRequest Unit) :=
  [(1, rated .up "f" 1), (2, rated .down "g" 2)]

end Sample

theorem feedback_stores_agree_sample :
    ((InMemoryConversationFeedbackStore.recordAll {} Sample.ratings).2.get "tenant" "user" "m").map
        ConversationFeedback.content =
      ((PostgresConversationFeedbackStore.recordAll {} (Sample.ratings.map (·.2))).2.get
        "tenant" "user" "m").map ConversationFeedback.content := by
  have hmessages : ∀ r ∈ Sample.ratings, r.2.message.conversationId = "c" := by
    intro r hr
    simp only [Sample.ratings, List.mem_cons, List.not_mem_nil, or_false] at hr
    rcases hr with rfl | rfl <;> rfl
  exact (feedback_stores_agree Sample.ratings (by decide) (fun _ => "c") hmessages).2.1 _ _ _

end TracciaRuntime
