/-
  Following the pages of the conversation stores.

  * `newest`: the times of a listing, newest first;
  * `Lists.page`, `messages_page`: what the stores answer are pages of one listing;
  * `pages_complete_iff`: the pages hold every item once, exactly if no two of them that are on
    different pages have the same time (for messages: if every message of a later page is older).
-/
import TracciaRuntime.Conversations.Stores
import TracciaRuntime.Listing.Pages

namespace TracciaRuntime

open Py Listing

variable {V : Type} {n : Nat}

/-- The times of conversations, newest first. -/
def newest (items : List StampedConversation) : List Time :=
  (items.map (·.updatedAt)).insertionSort (· ≥ ·)

/-- The times of messages, the last message first. -/
def lastFirst (items : List (ConversationMessage V)) : List Time :=
  (items.map (·.createdAt)).reverse

/-! ## Conversations -/

/-- `ORDER BY updated_at DESC`. -/
def Descending (items : List StampedConversation) : Prop :=
  items.Pairwise fun a b => b.updatedAt ≤ a.updatedAt

/-- The times of an ordered listing do not depend on the order of those with the same time. -/
theorem Descending.times_eq {l m : List StampedConversation} (hl : Descending l)
    (hm : Descending m) (h : l.Perm m) : l.map (·.updatedAt) = m.map (·.updatedAt) :=
  (h.map _).eq_of_pairwise (fun _ _ _ _ h h' => le_antisymm h' h)
    (List.pairwise_map.2 hl) (List.pairwise_map.2 hm)

theorem descending_insertionSort (items : List StampedConversation) :
    Descending (items.insertionSort fun a b => b.updatedAt ≤ a.updatedAt) :=
  @List.pairwise_insertionSort _ _ _ ⟨fun a b => le_total b.updatedAt a.updatedAt⟩
    ⟨fun _ _ _ h h' => h'.trans h⟩ items

/-- A page of any ordered listing is a page of each of them. -/
theorem Descending.page {items all rows page : List StampedConversation} {before : Option Time}
    (hitems : Descending items) (hall : items.Perm all) (hrows : Descending rows)
    (hperm : rows.Perm (all.filter fun item => precedes before item.updatedAt))
    (hpage : page = rows.take n) : Page (·.updatedAt) n items before page := by
  have h : rows.Perm (Listing.before (·.updatedAt) before items) := hperm.trans (hall.symm.filter _)
  exact ⟨rows, h, hrows.times_eq (hitems.filter _) h, hpage ▸ .refl _⟩

theorem newest_eq {items all : List StampedConversation} (hitems : Descending items)
    (hall : items.Perm all) : newest all = items.map (·.updatedAt) := by
  refine ((List.perm_insertionSort ..).trans (hall.symm.map _)).eq_of_pairwise
    (fun _ _ _ _ h h' => le_antisymm h' h) ?_ (List.pairwise_map.2 hitems)
  exact List.pairwise_insertionSort ..

/-- A store that answers with the first rows of an ordered listing. -/
theorem conversations_iff {P : Option Time → List StampedConversation → Prop}
    {all : List StampedConversation} (hn : 0 < n)
    (hP : ∀ before page, P before page → ∃ rows, Descending rows ∧
      rows.Perm (all.filter fun item => precedes before item.updatedAt) ∧ page = rows.take n)
    (hanswer : ∀ before, ∃ page, P before page) :
    Enumerates P (·.updatedAt) all ↔ Apart n (newest all) := by
  have hall : (all.insertionSort fun a b => b.updatedAt ≤ a.updatedAt).Perm all :=
    List.perm_insertionSort ..
  have hitems := descending_insertionSort all
  rw [enumerates_congr hall.symm, newest_eq hitems hall]
  refine enumerates_iff hn (fun before page h => ?_) hanswer
  obtain ⟨rows, hrows, hperm, heq⟩ := hP before page h
  exact hitems.page hall hrows hperm heq

/-! ## Messages -/

/-- A store that answers with the last messages. -/
theorem messages_iff {P : Option Time → List (ConversationMessage V) → Prop}
    {all : List (ConversationMessage V)} (hn : 0 < n)
    (hP : ∀ before page, P before page →
      page.reverse = (all.filter fun item => precedes before item.createdAt).reverse.take n)
    (hanswer : ∀ before, ∃ page, P before page) :
    Enumerates P (·.createdAt) all ↔ Apart n (lastFirst all) := by
  rw [enumerates_congr all.reverse_perm.symm, lastFirst, ← List.map_reverse]
  refine enumerates_iff hn (fun before page h => ?_) hanswer
  refine ⟨Listing.before (·.createdAt) before all.reverse, .refl _, rfl, ?_⟩
  rw [Listing.before, List.filter_reverse]
  exact page.reverse_perm.symm.trans (.of_eq (hP before page h))

/-! ## The stores -/

theorem filter_and {α : Type} {p : α → Prop} {q : α → Bool} [DecidablePred p] {items : List α} :
    items.filter (fun item => p item ∧ q item) = (items.filter fun item => p item).filter q := by
  rw [List.filter_filter]
  refine List.filter_congr fun item _ => ?_
  rw [Bool.decide_and, Bool.decide_coe, Bool.and_comm]

/-- **The pages of the stores** hold every item once, exactly if no two conversations that are on
    different pages were updated at the same time, and every message of a later page is older. -/
theorem pages_complete_iff (hn : 1 ≤ n) (m : InMemoryConversationStore V)
    (p : PostgresConversationStore V) (tenantId userId conversationId : String) :
    (Enumerates (fun before page => page = m.list tenantId userId n before) (·.updatedAt)
        (m.ofUser tenantId userId) ↔ Apart n (newest (m.ofUser tenantId userId))) ∧
    (Enumerates (p.Lists tenantId userId n) (·.updatedAt) (p.ofUser tenantId userId) ↔
        Apart n (newest (p.ofUser tenantId userId))) ∧
    (Enumerates (fun before page => page = m.messages conversationId tenantId n before)
        (·.createdAt) (m.ofConversation conversationId tenantId) ↔
        Apart n (lastFirst (m.ofConversation conversationId tenantId))) ∧
    (Enumerates (fun before page => page = p.messages conversationId tenantId n before)
        (·.createdAt) (p.ofConversation conversationId tenantId) ↔
        Apart n (lastFirst (p.ofConversation conversationId tenantId))) := by
  refine ⟨conversations_iff hn ?_ fun _ => ⟨_, rfl⟩, conversations_iff hn ?_ ?_,
    messages_iff hn ?_ fun _ => ⟨_, rfl⟩, messages_iff hn ?_ fun _ => ⟨_, rfl⟩⟩
  · rintro before page rfl
    refine ⟨_, descending_insertionSort _, (List.perm_insertionSort ..).trans (.of_eq ?_), rfl⟩
    exact filter_and
  · rintro before page ⟨rows, hperm, hrows, rfl⟩
    exact ⟨rows, hrows, hperm.trans (.of_eq filter_and), rfl⟩
  · intro before
    exact ⟨_, _, List.perm_insertionSort .., descending_insertionSort _, rfl⟩
  · rintro before page rfl
    rw [InMemoryConversationStore.messages, if_neg (Nat.ne_of_gt hn), filter_and, List.take_reverse]
    rfl
  · rintro before page rfl
    rw [PostgresConversationStore.messages, List.reverse_reverse, filter_and]
    rfl

/-- A conversation of Ada's. -/
def chat (id : String) (updatedAt : Time) : StampedConversation :=
  { id, tenantId := "acme", userId := "ada", agent := "agent", updatedAt }

/-- Two conversations of one time, and two of different times. -/
def tied : InMemoryConversationStore String where
  conversations := [("c1", chat "c1" 5), ("c2", chat "c2" 5)]

def untied : InMemoryConversationStore String where
  conversations := [("c1", chat "c1" 5), ("c2", chat "c2" 6)]

theorem pages_complete_untied :
    Enumerates (fun before page => page = untied.list "acme" "ada" 1 before) (·.updatedAt)
      (untied.ofUser "acme" "ada") :=
  (pages_complete_iff (by decide) untied {} "acme" "ada" "").1.2 (by decide)

/-- The second of two conversations of one time is not on the page behind the first. -/
theorem pages_skip_tied : ¬∀ (s : InMemoryConversationStore String) (n : Nat), 1 ≤ n →
    Enumerates (fun before page => page = s.list "acme" "ada" n before) (·.updatedAt)
      (s.ofUser "acme" "ada") := by
  intro hall
  have hfirst : [chat "c1" 5] = tied.list "acme" "ada" 1 none := by decide
  have hsecond : [] = tied.list "acme" "ada" 1 (some 5) := by decide
  have hfollows : Follows (fun before page => page = tied.list "acme" "ada" 1 before)
      (·.updatedAt) none [[chat "c1" 5]] :=
    .next hfirst (List.cons_ne_nil _ _) ⟨⟨_, List.mem_singleton_self _, rfl⟩, by simp [chat]⟩
      (.done hsecond)
  have := ((hall tied 1 (Nat.le_refl 1)).2 _ hfollows).length_eq
  exact absurd this (by decide)

end TracciaRuntime
