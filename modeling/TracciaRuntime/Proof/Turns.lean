/-
  Traccia Runtime formalization — conversations that are served side by side.

  * what the store and the operations do: `appendMessage_cases`, `updateMessage_cases` and
    `Quiet`, for all that changes no message, task, identifier or event;
  * `Sound`: every response has its message in the store, and no other one has the same;
  * `Grown`: what a task can rely on, whatever the other tasks do;
  * `Tolerant`: a contract under which a `submit` is safe (`submit_safe`).
-/
import TracciaRuntime.Async.Ended
import TracciaRuntime.Conversations.System

namespace TracciaRuntime

open Py Async

variable {V : Type}

/-! ## The store -/

namespace ConversationStore
variable {s s' : ConversationStore V} {m : ConversationMessage V}

theorem messagesOf_set (c c' : String) (l : List (ConversationMessage V)) :
    messagesOf { s with messages := s.messages.set c l } c' =
      if c' = c then l else s.messagesOf c' := by
  unfold messagesOf
  dsimp only
  rw [Dict.get_set]
  split <;> rfl

theorem mem_all_of_messagesOf {c : String} (h : m ∈ s.messagesOf c) : m ∈ s.all := by
  unfold messagesOf at h
  rcases hl : s.messages.get c with _ | l
  · rw [hl] at h
    cases h
  · rw [hl] at h
    exact List.mem_flatten.2 ⟨l, List.mem_map_of_mem (f := (·.2)) (Dict.mem_of_get hl), h⟩

theorem mem_all_of_message {c id : String} (h : s.message c id = some m) :
    m ∈ s.all ∧ m.id = id := by
  unfold message at h
  refine ⟨mem_all_of_messagesOf (List.mem_of_find?_eq_some h), ?_⟩
  have hid := List.find?_some h
  exact of_decide_eq_true hid

theorem mem_all_set {c : String} {l : List (ConversationMessage V)}
    (h : m ∈ all { s with messages := s.messages.set c l }) : m ∈ s.all ∨ m ∈ l := by
  obtain ⟨l', hl', hm⟩ := List.mem_flatten.1 h
  rcases Dict.mem_values_set hl' with rfl | hl'
  · exact .inr hm
  · exact .inl (List.mem_flatten.2 ⟨l', hl', hm⟩)

theorem appendMessage_cases (h : s.appendMessage m = .ok s') :
    s.message m.conversationId m.id = none ∧ s'.message m.conversationId m.id = some m ∧
    (∀ c id, (c, id) ≠ (m.conversationId, m.id) → s'.message c id = s.message c id) ∧
    ∀ x ∈ s'.all, x ∈ s.all ∨ x = m := by
  unfold appendMessage at h
  split at h
  · cases h
  · rename_i hany
    have hnone : s.message m.conversationId m.id = none := by
      refine List.find?_eq_none.2 fun x hx hid => hany ?_
      exact List.any_eq_true.2 ⟨x, hx, hid⟩
    cases h
    refine ⟨hnone, ?_, fun c id hne => ?_, fun x hx => ?_⟩
    · unfold message at hnone ⊢
      rw [messagesOf_set, if_pos rfl, List.find?_append, hnone]
      simp
    · unfold message
      rw [messagesOf_set]
      split
      · rename_i hc
        subst hc
        have hid : m.id ≠ id := fun he => hne (by rw [he])
        rw [List.find?_append]
        simp [hid]
      · rfl
    · rcases mem_all_set hx with hx | hx
      · exact .inl hx
      · rcases List.mem_append.1 hx with hx | hx
        · exact .inl (mem_all_of_messagesOf hx)
        · exact .inr (List.mem_singleton.1 hx)

/-- A message that is not there can be appended. -/
theorem appendMessage_of_message (h : s.message m.conversationId m.id = none) :
    ∃ s', s.appendMessage m = .ok s' := by
  refine ⟨_, if_neg fun hany => ?_⟩
  obtain ⟨x, hx, hid⟩ := List.any_eq_true.1 hany
  exact List.find?_eq_none.1 h x hx hid

theorem replace_cases {l l' : List (ConversationMessage V)} (h : replace m l = some l') :
    (∀ id, id ≠ m.id → l'.find? (fun x => x.id = id) = l.find? fun x => x.id = id) ∧
    (∀ x ∈ l', x ∈ l ∨ x = m) ∧
    (l'.find? (fun x => x.id = m.id) = l.find? (fun x => x.id = m.id) ∨
      l'.find? (fun x => x.id = m.id) = some m ∧
        ∃ x, l.find? (fun x => x.id = m.id) = some x ∧ x.tenantId = m.tenantId) := by
  induction l generalizing l' with
  | nil => cases h
  | cons current rest ih =>
    unfold replace at h
    split at h
    · rename_i hc
      cases h
      refine ⟨fun id hid => ?_, fun x hx => ?_, .inr ⟨by simp, current, by simp [hc.1], hc.2⟩⟩
      · have h₁ : ¬ m.id = id := fun he => hid he.symm
        have h₂ : ¬ current.id = id := fun he => hid (by rw [← he, hc.1])
        simp [h₁, h₂]
      · rcases List.mem_cons.1 hx with rfl | hx
        · exact .inr rfl
        · exact .inl (List.mem_cons_of_mem _ hx)
    · obtain ⟨r, hr, rfl⟩ := Option.map_eq_some_iff.1 h
      obtain ⟨hother, hmem, hself⟩ := ih hr
      refine ⟨fun id hid => ?_, fun x hx => ?_, ?_⟩
      · simp only [List.find?_cons, hother id hid]
      · rcases List.mem_cons.1 hx with rfl | hx
        · exact .inl List.mem_cons_self
        · exact (hmem x hx).imp_left (List.mem_cons_of_mem _)
      · simp only [List.find?_cons]
        split
        · exact .inl rfl
        · exact hself

/-- The update finds a message of its id that is the first one of that id. -/
theorem replace_of_find {l : List (ConversationMessage V)} {x : ConversationMessage V}
    (h : l.find? (fun x => x.id = m.id) = some x) (ht : x.tenantId = m.tenantId) :
    ∃ l', replace m l = some l' ∧ l'.find? (fun x => x.id = m.id) = some m := by
  induction l with
  | nil => cases h
  | cons current rest ih =>
    rw [List.find?_cons] at h
    split at h
    · rename_i hid
      cases h
      exact ⟨m :: rest, by rw [replace, if_pos ⟨of_decide_eq_true hid, ht⟩], by simp⟩
    · rename_i hid
      have hid : ¬ current.id = m.id := of_decide_eq_false hid
      obtain ⟨l', hl', hf⟩ := ih h
      refine ⟨current :: l', ?_, by simp [hid, hf]⟩
      rw [replace, if_neg fun hc => hid hc.1, hl']
      rfl

theorem updateMessage_cases (h : s.updateMessage m = .ok s') :
    (∀ c id, (c, id) ≠ (m.conversationId, m.id) → s'.message c id = s.message c id) ∧
    (∀ x ∈ s'.all, x ∈ s.all ∨ x = m) ∧
    (s'.message m.conversationId m.id = s.message m.conversationId m.id ∨
      s'.message m.conversationId m.id = some m ∧
        ∃ x, s.message m.conversationId m.id = some x ∧ x.tenantId = m.tenantId) := by
  unfold updateMessage at h
  rcases hr : replace m (s.messagesOf m.conversationId) with _ | l
  · rw [hr] at h
    cases h
  · rw [hr] at h
    cases h
    obtain ⟨hother, hmem, hself⟩ := replace_cases hr
    refine ⟨fun c id hne => ?_, fun x hx => ?_, ?_⟩
    · unfold message
      rw [messagesOf_set]
      split
      · rename_i hc
        subst hc
        exact hother id fun he => hne (by rw [he])
      · rfl
    · rcases mem_all_set hx with hx | hx
      · exact .inl hx
      · exact (hmem x hx).imp_left mem_all_of_messagesOf
    · unfold message
      rw [messagesOf_set, if_pos rfl]
      exact hself

/-- A message that is there can be updated. -/
theorem updateMessage_of_message {x : ConversationMessage V}
    (h : s.message m.conversationId m.id = some x) (ht : x.tenantId = m.tenantId) :
    ∃ s', s.updateMessage m = .ok s' ∧ s'.message m.conversationId m.id = some m := by
  obtain ⟨l, hl, hf⟩ := replace_of_find h ht
  refine ⟨{ s with messages := s.messages.set m.conversationId l }, ?_, ?_⟩
  · rw [updateMessage, hl]
  · unfold message messagesOf
    rw [Dict.get_set_self]
    exact hf

end ConversationStore

/-! ## The operations -/

namespace ConversationOp

/-- An operation that changes no message, response, identifier or event. -/
def isQuiet : ConversationOp V → Bool
  | appendMessage _ | updateMessage .. | publish _ | uuid | createTask _ => false
  | _ => true

end ConversationOp

namespace ConversationWorld
variable {cfg : ConversationConfig V} {t : Nat} {b : Bool} {w w' : ConversationWorld V}

/-- Nothing has changed that the conversations see. -/
structure Quiet (w w' : ConversationWorld V) : Prop where
  messages : w'.store.messages = w.store.messages
  turns : w'.turns = w.turns
  issued : w'.issued = w.issued
  started : w'.started = w.started
  events : w'.events = w.events

theorem Quiet.refl : Quiet w w := ⟨rfl, rfl, rfl, rfl, rfl⟩

theorem Quiet.message (h : Quiet w w') (c id : String) :
    w'.store.message c id = w.store.message c id := by
  unfold ConversationStore.message ConversationStore.messagesOf
  rw [h.messages]

theorem Quiet.messagesOf (h : Quiet w w') (c : String) :
    w'.store.messagesOf c = w.store.messagesOf c := by
  unfold ConversationStore.messagesOf
  rw [h.messages]

/-- The world with other cancellation flags. -/
def flagged (w : ConversationWorld V) (C : Finset Nat) : ConversationWorld V :=
  { w with cancelRequested := C }

theorem flagged_quiet {C : Finset Nat} : Quiet w (w.flagged C) := ⟨rfl, rfl, rfl, rfl, rfl⟩

theorem interrupt_flagged {e : Exn} (h : w.interrupt t e = some w') :
    ∃ C, w' = w.flagged C := by
  cases e <;> simp only [interrupt] at h <;> (repeat' split at h) <;> cases h <;> exact ⟨_, rfl⟩

theorem effect_quiet {o : ConversationOp V} {c : o.Choice} {r : Except Exn o.Resp}
    (ho : o.isQuiet) (h : w.effect cfg t o c = some (r, w')) : Quiet w w' := by
  cases o with
  | save c expectedVersion =>
    simp only [effect, ConversationStore.save, Option.some.injEq] at h
    split at h
    · rename_i store hs
      split at hs <;> cases hs
      cases h
      exact ⟨rfl, rfl, rfl, rfl, rfl⟩
    · cases h
      exact .refl
  | appendMessage | updateMessage | publish | uuid | createTask => cases ho
  | _ =>
    simp only [effect] at h
    (repeat' split at h) <;> cases h <;> first | exact .refl | exact ⟨rfl, rfl, rfl, rfl, rfl⟩

end ConversationWorld

section
open ConversationWorld
variable {cfg : ConversationConfig V} {t : Nat} {b : Bool} {w w' : ConversationWorld V}
  {o : ConversationOp V} {a : Act cfg.sem.Ans Exn o} {r : Except Exn o.Resp}

/-- **What one await of the service can do**, up to the cancellation flags. -/
theorem ConversationConfig.act_cases (h : cfg.sem.act t b w o a = some (r, w')) :
    ∃ C, (∃ c, (w.flagged C).effect cfg t o c = some (r, w')) ∨
      ∃ e, r = .error e ∧ o.isLocal = false ∧
        (w' = w.flagged C ∨ ∃ c r', (w.flagged C).effect cfg t o c = some (r', w')) := by
  have eff : ∀ {w₁ : ConversationWorld V} {r₁} {c : Answer o.Choice},
      cfg.sem.eff t w₁ o c = some (r₁, w') →
      (∃ c, w₁.effect cfg t o c = some (r₁, w')) ∨ ∃ e, r₁ = .error e ∧ o.isLocal = false ∧
        (w' = w₁ ∨ ∃ c r', w₁.effect cfg t o c = some (r', w')) := by
    have hlocal : o.isOutside → o.isLocal = false := by cases o <;> first | exact fun _ => rfl | nofun
    intro w₁ r₁ c hc
    cases c with
    | ok c => exact .inl ⟨c, hc⟩
    | error e =>
      simp only [ConversationConfig.sem] at hc
      split at hc
      · rename_i hl
        cases hc
        exact .inr ⟨e, rfl, hlocal hl.1, .inl rfl⟩
      · cases hc
    | lost e c =>
      simp only [ConversationConfig.sem] at hc
      split at hc
      · rename_i hl
        obtain ⟨⟨r', w''⟩, he, hx⟩ := Option.map_eq_some_iff.1 hc
        cases hx
        exact .inr ⟨e, rfl, hlocal hl.1, .inr ⟨c, r', he⟩⟩
      · cases hc
  rcases Sem.act_cases _ h with ⟨c, rfl, hc⟩ | ⟨e, w₁, hs, hi, rfl, hw⟩
  · refine ⟨w.cancelRequested, ?_⟩
    exact eff hc
  · obtain ⟨C, rfl⟩ := interrupt_flagged hi
    have hl : o.isLocal = false := by simpa [ConversationConfig.sem] using hs
    refine ⟨C, .inr ⟨e, rfl, hl, ?_⟩⟩
    rcases hw with rfl | ⟨c, r', hc⟩
    · exact .inl rfl
    · rcases eff hc with ⟨c, hc⟩ | ⟨_, _, _, hw⟩
      · exact .inr ⟨c, r', hc⟩
      · exact hw

theorem ConversationConfig.act_quiet (ho : o.isQuiet)
    (h : cfg.sem.act t b w o a = some (r, w')) : Quiet w w' := by
  obtain ⟨C, ⟨c, hc⟩ | ⟨e, -, -, rfl | ⟨c, r', hc⟩⟩⟩ := ConversationConfig.act_cases h
  · obtain ⟨h₁, h₂, h₃, h₄, h₅⟩ := effect_quiet ho hc
    exact ⟨h₁, h₂, h₃, h₄, h₅⟩
  · exact flagged_quiet
  · obtain ⟨h₁, h₂, h₃, h₄, h₅⟩ := effect_quiet ho hc
    exact ⟨h₁, h₂, h₃, h₄, h₅⟩

end

/-- All but the store is as before. -/
structure ConversationWorld.Stored (w w' : ConversationWorld V) (store : ConversationStore V) :
    Prop where
  store : w'.store = store
  turns : w'.turns = w.turns
  issued : w'.issued = w.issued
  started : w'.started = w.started
  events : w'.events = w.events

section
open ConversationWorld
variable {cfg : ConversationConfig V} {t : Nat} {b : Bool} {w w' : ConversationWorld V}

theorem ConversationWorld.Stored.quiet {store : ConversationStore V} (h : Stored w w' store) :
    Quiet { w with store } w' :=
  ⟨congrArg _ h.store, h.turns, h.issued, h.started, h.events⟩

/-- An operation that is neither interrupted nor fails. -/
def Passes {o : ConversationOp V} (a : Act cfg.sem.Ans Exn o) : Prop :=
  ∃ c : o.Choice, a = .done (Answer.ok c)

theorem Passes.act {o : ConversationOp V} {a : Act cfg.sem.Ans Exn o} {r : Except Exn o.Resp}
    (ha : Passes a) (h : cfg.sem.act t b w o a = some (r, w')) :
    ∃ c, w.effect cfg t o c = some (r, w') := by
  obtain ⟨c, rfl⟩ := ha
  exact ⟨c, h⟩

/-- A test for it. -/
def passing {o : ConversationOp V} : Act cfg.sem.Ans Exn o → Bool
  | .done c => match (c : Answer o.Choice) with
    | .ok _ => true
    | _ => false
  | _ => false

theorem passes_of_passing {o : ConversationOp V} {a : Act cfg.sem.Ans Exn o}
    (h : passing a = true) : Passes a := by
  cases a with
  | done c => cases c with
    | ok c => exact ⟨c, rfl⟩
    | error e => cases h
    | lost e c => cases h
  | before e => cases h
  | after e c => cases h

/-- **What one await inside the service can do**: only interruptions go wrong. -/
theorem ConversationConfig.act_inside {o : ConversationOp V} {a : Act cfg.sem.Ans Exn o}
    {r : Except Exn o.Resp} (ho : o.isOutside = false)
    (h : cfg.sem.act t b w o a = some (r, w')) :
    (∃ c, a = .done (Answer.ok c) ∧ w.effect cfg t o c = some (r, w')) ∨
      ∃ C e, r = .error e ∧ (a = .before e ∧ w' = w.flagged C ∨
        ∃ c r', a = .after e (Answer.ok c) ∧ (w.flagged C).effect cfg t o c = some (r', w')) := by
  have eff : ∀ {w₁ : ConversationWorld V} {r₁} {c : Answer o.Choice},
      cfg.sem.eff t w₁ o c = some (r₁, w') →
      ∃ c', c = Answer.ok c' ∧ w₁.effect cfg t o c' = some (r₁, w') := by
    intro w₁ r₁ c hc
    cases c with
    | ok c => exact ⟨c, rfl, hc⟩
    | error e => simp [ConversationConfig.sem, ho] at hc
    | lost e c => simp [ConversationConfig.sem, ho] at hc
  cases a with
  | done c =>
    obtain ⟨c, rfl, hc⟩ := eff h
    exact .inl ⟨c, rfl, hc⟩
  | before e =>
    simp only [Sem.act] at h
    split at h
    · obtain ⟨w₁, hi, hx⟩ := Option.map_eq_some_iff.1 h
      cases hx
      obtain ⟨C, rfl⟩ := interrupt_flagged hi
      exact .inr ⟨C, e, rfl, .inl ⟨rfl, rfl⟩⟩
    · cases h
  | after e c =>
    simp only [Sem.act] at h
    split at h
    · obtain ⟨w₁, hi, hx⟩ := Option.bind_eq_some_iff.1 h
      obtain ⟨⟨r', w₂⟩, hc, hx⟩ := Option.map_eq_some_iff.1 hx
      cases hx
      obtain ⟨C, rfl⟩ := interrupt_flagged hi
      obtain ⟨c, rfl, hc⟩ := eff hc
      exact .inr ⟨C, e, rfl, .inr ⟨c, r', rfl, hc⟩⟩
    · cases h

/-- The store has been written by `f`, or not. -/
theorem ConversationWorld.written
    {f : ConversationStore V → Except Exn (ConversationStore V)} {r : Except Exn Unit}
    {C : Finset Nat}
    (h : some (match f w.store with
      | .ok store => (.ok (), { w.flagged C with store })
      | .error e => (.error e, w.flagged C)) = some (r, w')) :
    (Quiet w w' ∧ ∃ e, r = .error e ∧ f w.store = .error e) ∨
      ∃ store, r = .ok () ∧ f w.store = .ok store ∧ Stored w w' store := by
  rcases hs : f w.store with e | store
  · rw [hs] at h
    cases h
    exact .inl ⟨flagged_quiet, e, rfl, rfl⟩
  · rw [hs] at h
    cases h
    exact .inr ⟨store, rfl, rfl, rfl, rfl, rfl, rfl, rfl⟩

theorem ConversationConfig.act_appendMessage {m : ConversationMessage V}
    {a : Act cfg.sem.Ans Exn (.appendMessage m : ConversationOp V)} {r : Except Exn Unit}
    (h : cfg.sem.act t b w (.appendMessage m) a = some (r, w')) :
    (Quiet w w' ∧ ∃ e, r = .error e ∧ (Passes a → w.store.appendMessage m = .error e)) ∨
      ∃ store, w.store.appendMessage m = .ok store ∧ Stored w w' store ∧
        (r = .ok () ∨ ∃ e c, a = .after e c) := by
  obtain ⟨c, rfl, hc⟩ | ⟨C, e, rfl, ⟨rfl, rfl⟩ | ⟨c, r', rfl, hc⟩⟩ :=
    ConversationConfig.act_inside rfl h
  · rcases written (w := w) (f := (·.appendMessage m)) (C := w.cancelRequested) hc with
      ⟨hq, e, rfl, he⟩ | ⟨store, rfl, hs, hw⟩
    · exact .inl ⟨hq, e, rfl, fun _ => he⟩
    · exact .inr ⟨store, hs, hw, .inl rfl⟩
  · exact .inl ⟨flagged_quiet, e, rfl, fun ⟨c, hc⟩ => nomatch hc⟩
  · rcases written (w := w) (f := (·.appendMessage m)) (C := C) hc with
      ⟨hq, -⟩ | ⟨store, -, hs, hw⟩
    · exact .inl ⟨hq, e, rfl, fun ⟨c, hc⟩ => nomatch hc⟩
    · exact .inr ⟨store, hs, hw, .inr ⟨e, _, rfl⟩⟩

theorem ConversationConfig.act_updateMessage {site : UpdateSite} {m : ConversationMessage V}
    {a : Act cfg.sem.Ans Exn (.updateMessage site m : ConversationOp V)} {r : Except Exn Unit}
    (h : cfg.sem.act t b w (.updateMessage site m) a = some (r, w')) :
    (Quiet w w' ∧ ∃ e, r = .error e ∧
        ((∀ e, a ≠ .before e) → ∃ e, w.store.updateMessage m = .error e)) ∨
      ∃ store, w.store.updateMessage m = .ok store ∧ Stored w w' store ∧
        (r = .ok () ∨ ∃ e c, a = .after e c) := by
  obtain ⟨c, rfl, hc⟩ | ⟨C, e, rfl, ⟨rfl, rfl⟩ | ⟨c, r', rfl, hc⟩⟩ :=
    ConversationConfig.act_inside rfl h
  · rcases written (w := w) (f := (·.updateMessage m)) (C := w.cancelRequested) hc with
      ⟨hq, e, rfl, he⟩ | ⟨store, rfl, hs, hw⟩
    · exact .inl ⟨hq, e, rfl, fun _ => ⟨e, he⟩⟩
    · exact .inr ⟨store, hs, hw, .inl rfl⟩
  · exact .inl ⟨flagged_quiet, e, rfl, fun hb => absurd rfl (hb e)⟩
  · rcases written (w := w) (f := (·.updateMessage m)) (C := C) hc with
      ⟨hq, e', -, he⟩ | ⟨store, -, hs, hw⟩
    · exact .inl ⟨hq, e, rfl, fun _ => ⟨e', he⟩⟩
    · exact .inr ⟨store, hs, hw, .inr ⟨e, _, rfl⟩⟩

/-- An event is published, or nothing is. -/
theorem ConversationConfig.act_publish {e : ConversationEvent V}
    {a : Act cfg.sem.Ans Exn (.publish e : ConversationOp V)} {r : Except Exn Unit}
    (h : cfg.sem.act t b w (.publish e) a = some (r, w')) :
    (Quiet w w' ∧ ∃ x, r = .error x) ∨ Quiet { w with events := e :: w.events } w' := by
  obtain ⟨C, ⟨c, hc⟩ | ⟨x, rfl, -, rfl | ⟨c, r', hc⟩⟩⟩ := ConversationConfig.act_cases h
  · cases hc
    exact .inr ⟨rfl, rfl, rfl, rfl, rfl⟩
  · exact .inl ⟨flagged_quiet, x, rfl⟩
  · cases hc
    exact .inr ⟨rfl, rfl, rfl, rfl, rfl⟩

theorem ConversationConfig.act_uuid {a : Act cfg.sem.Ans Exn (.uuid : ConversationOp V)} {r : Except Exn String}
    (h : cfg.sem.act t b w .uuid a = some (r, w')) :
    ∃ id, r = .ok id ∧ w.issued.get id = none ∧
      Quiet { w with issued := w.issued.set id (some t) } w' := by
  obtain ⟨C, ⟨c, hc⟩ | ⟨e, -, hl, -⟩⟩ := ConversationConfig.act_cases h
  · simp only [effect] at hc
    split at hc
    · cases hc
    · rename_i hn
      cases hc
      refine ⟨c, rfl, Option.not_isSome_iff_eq_none.1 hn, ?_⟩
      exact ⟨rfl, rfl, rfl, rfl, rfl⟩
  · cases hl

theorem ConversationConfig.act_createTask {turn : Turn V}
    {a : Act cfg.sem.Ans Exn (.createTask turn : ConversationOp V)} {r : Except Exn Unit}
    (h : cfg.sem.act t b w (.createTask turn) a = some (r, w')) :
    r = .ok () ∧ ∃ d, d ∉ w.started ∧ w.turns.get d = none ∧
      Quiet { w with turns := w.turns.set d turn } w' := by
  obtain ⟨C, ⟨d, hc⟩ | ⟨e, -, hl, -⟩⟩ := ConversationConfig.act_cases h
  · simp only [effect] at hc
    split at hc
    · cases hc
    · rename_i hd
      push Not at hd
      cases hc
      refine ⟨rfl, d, hd.1, Option.not_isSome_iff_eq_none.1 hd.2.1, ?_⟩
      exact ⟨rfl, rfl, rfl, rfl, rfl⟩
  · cases hl

end

/-! ## What holds of the messages -/

namespace ConversationWorld

/-- The stored message of a response. -/
def stored (w : ConversationWorld V) (x : Turn V) : Option (ConversationMessage V) :=
  w.store.message x.assistantMessage.conversationId x.assistantMessage.id

/-- No response has this message. -/
def Untold (w : ConversationWorld V) (id : String) : Prop :=
  ∀ d x, w.turns.get d = some x → x.assistantMessage.id ≠ id

/-- A message of an assistant is stored there. -/
def Recorded (w : ConversationWorld V) (m : ConversationMessage V) : Prop :=
  ∃ x, w.store.message m.conversationId m.id = some x ∧ x.tenantId = m.tenantId ∧
    x.role = .assistant

/-- The message of an assistant that has been recorded. -/
def Listed (m : ConversationMessage V) (w : ConversationWorld V) : Prop :=
  w.Recorded m ∧ m.role = .assistant

/-- The messages, the identifiers and the responses fit together. -/
structure Sound (w : ConversationWorld V) : Prop where
  filed : ∀ m ∈ w.store.all, ∃ x, w.store.message m.conversationId m.id = some x ∧
    x.tenantId = m.tenantId ∧ x.role = m.role
  issued : ∀ c id m, w.store.message c id = some m → (w.issued.get id).isSome
  started : ∀ id t, w.issued.get id = some (some t) → t ∈ w.started
  turn : ∀ d x, w.turns.get d = some x → Listed x.assistantMessage w
  distinct : ∀ d d' x x', w.turns.get d = some x → w.turns.get d' = some x' →
    x.assistantMessage.id = x'.assistantMessage.id → d = d'
  unstarted : ∀ d x m, w.turns.get d = some x → d ∉ w.started → w.stored x = some m →
    m.status ≠ .completed

/-- What task `t` can rely on, whatever the other tasks do. -/
structure Grown (t : Nat) (w w' : ConversationWorld V) : Prop where
  issued : ∀ id u, w.issued.get id = some u → w'.issued.get id = some u
  mine : ∀ id, w'.issued.get id = some (some t) → w.issued.get id = some (some t)
  message : ∀ c id m, w.store.message c id = some m → ∃ m', w'.store.message c id = some m' ∧
    m'.tenantId = m.tenantId ∧ m'.role = m.role ∧ (m.role = .user → m' = m) ∧
    (w'.Untold id → m'.status = .completed → m.status = .completed)
  turns : ∀ d x, w.turns.get d = some x → w'.turns.get d = some x
  call : t ∈ w.started → w.turns.get t = none → w'.turns.get t = none
  started : w.started ⊆ w'.started
  absent : ∀ id, w.issued.get id = some (some t) → (∀ c, w.store.message c id = none) →
    ∀ c, w'.store.message c id = none
  untold : ∀ id, w.issued.get id = some (some t) → w.Untold id → w'.Untold id

section
variable {t : Nat} {w w₁ w' : ConversationWorld V}

theorem Grown.refl : Grown t w w :=
  ⟨fun _ _ h => h, fun _ h => h, fun _ _ m h => ⟨m, h, rfl, rfl, fun _ => rfl, fun _ h => h⟩,
    fun _ _ h => h, fun _ h => h, Finset.Subset.refl _, fun _ _ h => h, fun _ _ h => h⟩

theorem Grown.trans (h : Grown t w w₁) (h' : Grown t w₁ w') : Grown t w w' where
  issued id u hu := h'.issued id u (h.issued id u hu)
  mine id hid := h.mine id (h'.mine id hid)
  message c id m hm := by
    obtain ⟨m₁, hm₁, ht₁, hr₁, hu₁, hc₁⟩ := h.message c id m hm
    obtain ⟨m₂, hm₂, ht₂, hr₂, hu₂, hc₂⟩ := h'.message c id m₁ hm₁
    refine ⟨m₂, hm₂, ht₂.trans ht₁, hr₂.trans hr₁, fun hu => ?_, fun hn hc => ?_⟩
    · rw [hu₂ (hr₁.trans hu), hu₁ hu]
    · exact hc₁ (fun d x hx => hn d x (h'.turns d x hx)) (hc₂ hn hc)
  turns d x hx := h'.turns d x (h.turns d x hx)
  call ht hn := h'.call (h.started ht) (h.call ht hn)
  started := h.started.trans h'.started
  absent id hid ha := h'.absent id (h.issued id _ hid) (h.absent id hid ha)
  untold id hid hu := h'.untold id (h.issued id _ hid) (h.untold id hid hu)

theorem Grown.listed (h : Grown t w w') {m : ConversationMessage V} (hm : Listed m w) :
    Listed m w' := by
  obtain ⟨⟨x, hx, ht, hr⟩, hm⟩ := hm
  obtain ⟨x', hx', ht', hr', -⟩ := h.message _ _ _ hx
  exact ⟨⟨x', hx', ht'.trans ht, hr'.trans hr⟩, hm⟩

/-! ### The steps -/

theorem Quiet.trans (h : Quiet w w₁) (h' : Quiet w₁ w') : Quiet w w' :=
  ⟨h'.messages.trans h.messages, h'.turns.trans h.turns, h'.issued.trans h.issued,
    h'.started.trans h.started, h'.events.trans h.events⟩

theorem Quiet.all (h : Quiet w w') : w'.store.all = w.store.all := by
  unfold ConversationStore.all
  rw [h.messages]

theorem Quiet.stored (h : Quiet w w') (x : Turn V) : w'.stored x = w.stored x := h.message _ _

/-- A step that changes neither messages nor responses nor identifiers. -/
theorem Sound.same (hw : Sound w) (hm : w'.store.messages = w.store.messages)
    (ht : w'.turns = w.turns) (hi : w'.issued = w.issued) (hs : w.started ⊆ w'.started) :
    Sound w' := by
  have hmessage : ∀ c id, w'.store.message c id = w.store.message c id := by
    intro c id
    unfold ConversationStore.message ConversationStore.messagesOf
    rw [hm]
  have hall : w'.store.all = w.store.all := by
    unfold ConversationStore.all
    rw [hm]
  refine ⟨?_, ?_, ?_, ?_, ?_, ?_⟩
  · rw [hall]
    simpa only [hmessage] using hw.filed
  · simpa only [hmessage, hi] using hw.issued
  · rw [hi]
    exact fun id t h => hs (hw.started id t h)
  · simpa only [Listed, Recorded, hmessage, ht] using hw.turn
  · simpa only [ht] using hw.distinct
  · intro d x m hx hd hm
    rw [stored, hmessage] at hm
    rw [ht] at hx
    exact hw.unstarted d x m hx (fun h => hd (hs h)) hm

theorem Grown.same (hm : w'.store.messages = w.store.messages) (ht : w'.turns = w.turns)
    (hi : w'.issued = w.issued) (hs : w.started ⊆ w'.started) : Grown t w w' := by
  have hmessage : ∀ c id, w'.store.message c id = w.store.message c id := by
    intro c id
    unfold ConversationStore.message ConversationStore.messagesOf
    rw [hm]
  refine ⟨?_, ?_, fun c id m h => ⟨m, ?_, rfl, rfl, fun _ => rfl, fun _ h => h⟩, ?_, ?_, hs, ?_, ?_⟩
  · rw [hi]
    exact fun _ _ h => h
  · rw [hi]
    exact fun _ h => h
  · rw [hmessage]
    exact h
  · rw [ht]
    exact fun _ _ h => h
  · rw [ht]
    exact fun _ h => h
  · simp only [hmessage]
    exact fun _ _ h => h
  · simp only [Untold, ht]
    exact fun _ _ h => h

theorem Quiet.sound (h : Quiet w w') (hw : Sound w) : Sound w' :=
  hw.same h.messages h.turns h.issued h.started.ge

theorem Quiet.grown (h : Quiet w w') (t : Nat) : Grown t w w' :=
  Grown.same h.messages h.turns h.issued h.started.ge

/-- An identifier is given out. -/
theorem issue_sound {id : String} (hw : Sound w) (hn : w.issued.get id = none)
    (ht : t ∈ w.started) : Sound { w with issued := w.issued.set id (some t) } ∧
      ∀ t', t' ≠ t → Grown t' w { w with issued := w.issued.set id (some t) } := by
  have hold : ∀ id' u, w.issued.get id' = some u → (w.issued.set id (some t)).get id' = some u := by
    intro id' u hu
    rw [Dict.get_set_ne, hu]
    rintro rfl
    rw [hn] at hu
    cases hu
  refine ⟨⟨hw.filed, fun c id' m hm => ?_, fun id' u hu => ?_, hw.turn, hw.distinct,
    hw.unstarted⟩, ?_⟩
  · obtain ⟨u, hu⟩ := Option.isSome_iff_exists.1 (hw.issued c id' m hm)
    exact Option.isSome_iff_exists.2 ⟨u, hold id' u hu⟩
  · dsimp only at hu
    rw [Dict.get_set] at hu
    split at hu
    · cases hu
      exact ht
    · exact hw.started id' u hu
  · intro t' hne
    refine { (Grown.refl : Grown t' w w) with issued := hold, mine := fun id' hid => ?_ }
    dsimp only at hid
    rw [Dict.get_set] at hid
    split at hid
    · cases hid
      exact absurd rfl hne
    · exact hid

/-- A message with a new identifier is appended. -/
theorem append_sound {m : ConversationMessage V} {store : ConversationStore V} (hw : Sound w)
    (hid : w.issued.get m.id = some (some t)) (h : w.store.appendMessage m = .ok store) :
    Sound { w with store } ∧ ∀ t', t' ≠ t → Grown t' w { w with store } := by
  obtain ⟨hnone, hself, hother, hall⟩ := ConversationStore.appendMessage_cases h
  have hold : ∀ c id x, w.store.message c id = some x → store.message c id = some x := by
    intro c id x hx
    rw [hother c id, hx]
    rintro he
    cases he
    rw [hnone] at hx
    cases hx
  have hold' : ∀ d x, w.turns.get d = some x →
      store.message x.assistantMessage.conversationId x.assistantMessage.id = w.stored x := by
    intro d x hx
    obtain ⟨⟨y, hy, -⟩, -⟩ := hw.turn d x hx
    exact (hold _ _ _ hy).trans hy.symm
  refine ⟨⟨fun x hx => ?_, fun c id x hx => ?_, hw.started, fun d x hx => ?_, hw.distinct,
    fun d x m hx hd hm => ?_⟩, fun t' hne => ?_⟩
  · rcases hall x hx with hx | rfl
    · obtain ⟨y, hy, ht, hr⟩ := hw.filed x hx
      exact ⟨y, hold _ _ _ hy, ht, hr⟩
    · exact ⟨x, hself, rfl, rfl⟩
  · by_cases he : (c, id) = (m.conversationId, m.id)
    · cases he
      exact Option.isSome_iff_exists.2 ⟨_, hid⟩
    · exact hw.issued c id x ((hother c id he).symm.trans hx)
  · obtain ⟨⟨y, hy, hr⟩, hx⟩ := hw.turn d x hx
    exact ⟨⟨y, hold _ _ _ hy, hr⟩, hx⟩
  · exact hw.unstarted d x m hx hd ((hold' d x hx).symm.trans hm)
  · refine { (Grown.refl : Grown t' w w) with
      message := fun c id x hx => ⟨x, hold c id x hx, rfl, rfl, fun _ => rfl, fun _ h => h⟩
      absent := fun id hid' ha c => ?_ }
    refine (hother c id ?_).trans (ha c)
    rintro he
    cases he
    rw [hid] at hid'
    cases hid'
    exact hne rfl

/-- A message of an assistant is updated; only a response completes one, its own. -/
theorem update_sound {m : ConversationMessage V} {store : ConversationStore V} (hw : Sound w)
    (hm : Listed m w) (hc : m.status = .completed → ∃ d x, w.turns.get d = some x ∧
      d ∈ w.started ∧ x.assistantMessage.id = m.id)
    (h : w.store.updateMessage m = .ok store) :
    Sound { w with store } ∧ ∀ t, Grown t w { w with store } := by
  obtain ⟨hother, hall, hself⟩ := ConversationStore.updateMessage_cases h
  obtain ⟨⟨y, hy, hyt, hyr⟩, hr⟩ := hm
  have hold : ∀ c id x, w.store.message c id = some x → ∃ x', store.message c id = some x' ∧
      x'.tenantId = x.tenantId ∧ x'.role = x.role ∧ (x.role = .user → x' = x) ∧
      (w.Untold id → x'.status = .completed → x.status = .completed) := by
    intro c id x hx
    by_cases he : (c, id) = (m.conversationId, m.id)
    · cases he
      rw [hy] at hx
      cases hx
      rcases hself with hs | ⟨hs, -⟩
      · exact ⟨y, hs.trans hy, rfl, rfl, fun _ => rfl, fun _ h => h⟩
      · refine ⟨m, hs, hyt.symm, hr.trans hyr.symm, fun hu => ?_, fun hn hm => ?_⟩
        · rw [hyr] at hu
          cases hu
        · obtain ⟨d, x, hx, -, hid⟩ := hc hm
          exact absurd hid (hn d x hx)
    · exact ⟨x, (hother c id he).trans hx, rfl, rfl, fun _ => rfl, fun _ h => h⟩
  have hnone : ∀ c id, w.store.message c id = none → store.message c id = none := by
    intro c id hn
    refine (hother c id ?_).trans hn
    rintro he
    cases he
    rw [hy] at hn
    cases hn
  refine ⟨⟨fun x hx => ?_, fun c id x hx => ?_, hw.started, fun d x hx => ?_, hw.distinct,
    fun d x z hx hd hz hzc => ?_⟩, fun t => ?_⟩
  · rcases hall x hx with hx | rfl
    · obtain ⟨z, hz, hzt, hzr⟩ := hw.filed x hx
      obtain ⟨z', hz', ht', hr', -⟩ := hold _ _ _ hz
      exact ⟨z', hz', ht'.trans hzt, hr'.trans hzr⟩
    · obtain ⟨z', hz', ht', hr', -⟩ := hold _ _ _ hy
      exact ⟨z', hz', ht'.trans hyt, hr'.trans (hyr.trans hr.symm)⟩
  · rcases hn : w.store.message c id with _ | z
    · exact absurd ((hnone c id hn).symm.trans hx) (by simp)
    · exact hw.issued c id z hn
  · obtain ⟨⟨z, hz, hzt, hzr⟩, hx⟩ := hw.turn d x hx
    obtain ⟨z', hz', ht', hr', -⟩ := hold _ _ _ hz
    exact ⟨⟨z', hz', ht'.trans hzt, hr'.trans hzr⟩, hx⟩
  · obtain ⟨⟨y', hy', -⟩, -⟩ := hw.turn d x hx
    obtain ⟨z', hz', -⟩ := hold _ _ _ hy'
    cases hz.symm.trans hz'
    by_cases he : (x.assistantMessage.conversationId, x.assistantMessage.id) =
        (m.conversationId, m.id)
    · obtain ⟨hce, hie⟩ := Prod.mk.inj he
      rcases hself with hs | ⟨hs, -⟩
      · refine hw.unstarted d x z hx hd ?_ hzc
        rw [stored, hce, hie, ← hs, ← hce, ← hie]
        exact hz
      · have hzm : z = m := by
          rw [stored, hce, hie] at hz
          exact Option.some.inj (hz.symm.trans hs)
        obtain ⟨d', x', hx', hd', hid⟩ := hc (hzm ▸ hzc)
        have hdd := hw.distinct d d' x x' hx hx' (hie.trans hid.symm)
        exact hd (hdd ▸ hd')
    · exact hw.unstarted d x z hx hd ((hother _ _ he).symm.trans hz) hzc
  · exact { (Grown.refl : Grown t w w) with
      message := hold, absent := fun id _ ha c => hnone c id (ha c) }

/-- A response is created. -/
theorem create_sound {d : Nat} {x : Turn V} (hw : Sound w)
    (hid : w.issued.get x.assistantMessage.id = some (some t))
    (hu : w.Untold x.assistantMessage.id) (hx : Listed x.assistantMessage w)
    (hc : ∀ m, w.stored x = some m → m.status ≠ .completed)
    (hd : w.turns.get d = none) (hs : d ∉ w.started) :
    Sound { w with turns := w.turns.set d x } ∧
      ∀ t', t' ≠ t → Grown t' w { w with turns := w.turns.set d x } := by
  have hcases : ∀ d' x', (w.turns.set d x).get d' = some x' → d' = d ∧ x' = x ∨
      d' ≠ d ∧ w.turns.get d' = some x' := by
    intro d' x' h
    rw [Dict.get_set] at h
    split at h
    · rename_i he
      cases h
      exact .inl ⟨he, rfl⟩
    · rename_i he
      exact .inr ⟨he, h⟩
  refine ⟨⟨hw.filed, hw.issued, hw.started, fun d' x' hx' => ?_, fun d₁ d₂ x₁ x₂ h₁ h₂ he => ?_,
    fun d' x' m hx' hd' hm => ?_⟩, fun t' hne => ?_⟩
  · rcases hcases d' x' hx' with ⟨-, rfl⟩ | ⟨-, h⟩
    · exact hx
    · exact hw.turn d' x' h
  · rcases hcases d₁ x₁ h₁ with ⟨rfl, rfl⟩ | ⟨-, old₁⟩ <;>
      rcases hcases d₂ x₂ h₂ with ⟨rfl, rfl⟩ | ⟨-, old₂⟩
    · rfl
    · exact absurd he.symm (hu d₂ x₂ old₂)
    · exact absurd he (hu d₁ x₁ old₁)
    · exact hw.distinct d₁ d₂ x₁ x₂ old₁ old₂ he
  · rcases hcases d' x' hx' with ⟨-, rfl⟩ | ⟨-, h⟩
    · exact hc m hm
    · exact hw.unstarted d' x' m h hd' hm
  · refine { (Grown.refl : Grown t' w w) with
      message := fun c id m hm => ⟨m, hm, rfl, rfl, fun _ => rfl, fun _ h => h⟩
      turns := fun d' x' h => ?_, call := fun ht hn => ?_
      untold := fun id hid' hu' d' x' h => ?_ }
    · refine (Dict.get_set_ne ?_).trans h
      rintro rfl
      rw [hd] at h
      cases h
    · refine (Dict.get_set_ne ?_).trans hn
      rintro rfl
      exact hs ht
    · rcases hcases d' x' h with ⟨-, rfl⟩ | ⟨-, h⟩
      · rintro rfl
        rw [hid] at hid'
        cases hid'
        exact hne rfl
      · exact hu' d' x' h

end

end ConversationWorld

/-! ## Contracts -/

open ConversationWorld

/-- A contract that tolerates all that the service does, but for the responses. -/
structure Tolerant (R : Contract (ConversationWorld V)) : Prop where
  sound : ∀ {w}, R.valid w → Sound w
  grown : ∀ {t w w'}, R.rely t w w' → Grown t w w'
  quiet : ∀ {w w'}, R.valid w → Quiet w w' → R.valid w' ∧ ∀ t, R.rely t w w'
  publish : ∀ {w e}, R.valid w → (∀ id, e.messageId = some id → w.Untold id) →
    R.valid { w with events := e :: w.events } ∧ ∀ t, R.rely t w { w with events := e :: w.events }
  issue : ∀ {t w id}, R.valid w → w.issued.get id = none → t ∈ w.started →
    R.valid { w with issued := w.issued.set id (some t) } ∧
      ∀ t', t' ≠ t → R.rely t' w { w with issued := w.issued.set id (some t) }
  append : ∀ {t w m store}, R.valid w → w.issued.get m.id = some (some t) →
    w.store.appendMessage m = .ok store →
    R.valid { w with store } ∧ ∀ t', t' ≠ t → R.rely t' w { w with store }
  create : ∀ {t w d} {x : Turn V}, R.valid w →
    w.issued.get x.assistantMessage.id = some (some t) → w.Untold x.assistantMessage.id →
    Listed x.assistantMessage w → (∀ m, w.stored x = some m → m.status ≠ .completed) →
    w.turns.get d = none → d ∉ w.started →
    R.valid { w with turns := w.turns.set d x } ∧
      ∀ t', t' ≠ t → R.rely t' w { w with turns := w.turns.set d x }
  enter : ∀ {t w}, R.valid w →
    R.valid { w with started := insert t w.started } ∧
      ∀ t', R.rely t' w { w with started := insert t w.started }

/-- The events of a response. -/
def ConversationWorld.told (w : ConversationWorld V) (x : Turn V) : List (ConversationEvent V) :=
  w.events.filter fun e => e.messageId = some x.assistantMessage.id

/-- The response `d` has not been touched. -/
def ConversationWorld.Untouched (d : Nat) (w w' : ConversationWorld V) : Prop :=
  ∀ x, w.turns.get d = some x → w'.stored x = w.stored x ∧ w'.told x = w.told x

/-- The contract with `X` for the responses. -/
def turnContract (X : Nat → ConversationWorld V → ConversationWorld V → Prop)
    (refl : ∀ t w, X t w w)
    (trans : ∀ t w₁ w₂ w₃, Grown t w₁ w₂ → X t w₁ w₂ → X t w₂ w₃ → X t w₁ w₃) :
    Contract (ConversationWorld V) where
  valid := Sound
  rely t w w' := Grown t w w' ∧ X t w w'
  refl t w := ⟨Grown.refl, refl t w⟩
  trans h h' := ⟨h.1.trans h'.1, trans _ _ _ _ h.1 h.2 h'.2⟩

theorem turnContract_tolerant {X : Nat → ConversationWorld V → ConversationWorld V → Prop}
    {refl : ∀ t w, X t w w}
    {trans : ∀ t w₁ w₂ w₃, Grown t w₁ w₂ → X t w₁ w₂ → X t w₂ w₃ → X t w₁ w₃}
    (hX : ∀ t w w', (∀ d, Untouched d w w') → X t w w') : Tolerant (turnContract X refl trans) where
  sound h := h
  grown h := h.1
  quiet {w w'} hw h := by
    have ha : ∀ d, Untouched d w w' := fun d x _ => ⟨h.stored x, by rw [told, told, h.events]⟩
    exact ⟨h.sound hw, fun t => ⟨h.grown t, hX t w w' ha⟩⟩
  publish {w e} hw he := by
    have ha : ∀ d, Untouched d w { w with events := e :: w.events } := by
      refine fun d x hx => ⟨rfl, ?_⟩
      have hne : e.messageId ≠ some x.assistantMessage.id := fun h => he _ h d x hx rfl
      simp [told, hne]
    exact ⟨hw.same rfl rfl rfl (Finset.Subset.refl _),
      fun t => ⟨Grown.same rfl rfl rfl (Finset.Subset.refl _), hX t _ _ ha⟩⟩
  issue hw hn ht := by
    obtain ⟨hs, hg⟩ := issue_sound hw hn ht
    exact ⟨hs, fun t' hne => ⟨hg t' hne, hX t' _ _ fun _ _ _ => ⟨rfl, rfl⟩⟩⟩
  append {t w m store} hw hid h := by
    obtain ⟨hs, hg⟩ := append_sound hw hid h
    obtain ⟨hnone, -, hother, -⟩ := ConversationStore.appendMessage_cases h
    have ha : ∀ d, Untouched d w { w with store } := by
      refine fun d x hx => ⟨hother _ _ ?_, rfl⟩
      obtain ⟨⟨y, hy, -⟩, -⟩ := hw.turn d x hx
      intro he
      obtain ⟨hc, hi⟩ := Prod.mk.inj he
      rw [hc, hi, hnone] at hy
      cases hy
    exact ⟨hs, fun t' hne => ⟨hg t' hne, hX t' _ _ ha⟩⟩
  create hw hid hu hx hc hd hs := by
    obtain ⟨hs, hg⟩ := create_sound hw hid hu hx hc hd hs
    exact ⟨hs, fun t' hne => ⟨hg t' hne, hX t' _ _ fun _ _ _ => ⟨rfl, rfl⟩⟩⟩
  enter {t w} hw := by
    have hsub : w.started ⊆ insert t w.started := Finset.subset_insert _ _
    exact ⟨hw.same rfl rfl rfl hsub,
      fun t' => ⟨Grown.same rfl rfl rfl hsub, hX t' _ _ fun _ _ _ => ⟨rfl, rfl⟩⟩⟩

section
variable {cfg : ConversationConfig V} {A : Allow cfg.sem.Ans Exn (ConversationWorld V)}
  {R : Contract (ConversationWorld V)} {t : Nat} {G : ConversationWorld V → Prop}

theorem Tolerant.keeps_quiet (hR : Tolerant R) {o : ConversationOp V} (ho : o.isQuiet) :
    Keeps cfg.sem A R t G o :=
  fun _ _ _ _ _ hv _ _ hact => hR.quiet hv (ConversationConfig.act_quiet ho hact)

/-- A step, and then a quiet one. -/
theorem Tolerant.then_quiet (hR : Tolerant R) {N : Nat → Prop} {w w₁ w' : ConversationWorld V}
    (h : R.valid w₁ ∧ ∀ t', N t' → R.rely t' w w₁) (hq : Quiet w₁ w') :
    R.valid w' ∧ ∀ t', N t' → R.rely t' w w' := by
  obtain ⟨hv, hr⟩ := hR.quiet h.1 hq
  exact ⟨hv, fun t' hne => R.trans (h.2 t' hne) (hr t')⟩

theorem Tolerant.keeps_publish (hR : Tolerant R) {e : ConversationEvent V}
    (he : ∀ w, R.valid w → G w → ∀ id, e.messageId = some id → w.Untold id) :
    Keeps cfg.sem A R t G (.publish e) := by
  intro b w a r w' hv hg ha hact
  rcases ConversationConfig.act_publish hact with ⟨hq, -⟩ | hq
  · exact hR.quiet hv hq
  · have h := hR.then_quiet (N := fun _ => True) (w := w)
      ((hR.publish hv (he w hv hg)).imp_right fun h t' _ => h t') hq
    exact ⟨h.1, fun t' => h.2 t' trivial⟩

/-! ## The other calls -/

open ConversationService

theorem ConversationService.emit_uses {P : ConversationOp V → Prop} {c : Conversation} {type : String}
    {data : Dict String V} {id : Option String} (hs : P (.nextSequence c.id type id))
    (hp : ∀ sequence, P (.publish ⟨type, c.id, c.tenantId, id, sequence, data⟩))
    (ha : ∀ action outcome tenantId actorId resourceId messageId,
      P (.audit action outcome tenantId actorId resourceId messageId)) :
    (emit cfg c type data id).Uses P := by
  refine Prog.Uses.bind (Prog.Uses.call hs) fun sequence =>
    Prog.Uses.bind (Prog.Uses.call (hp sequence)) fun _ => ?_
  split
  · exact Prog.Uses.call (ha _ _ _ _ _ _)
  · exact Prog.Uses.pure _

theorem Tolerant.emit_keeps (hR : Tolerant R) {c : Conversation} {type : String}
    {data : Dict String V} {id : Option String}
    (he : ∀ w, R.valid w → G w → ∀ i, id = some i → w.Untold i) :
    (emit cfg c type data id).Uses (Keeps cfg.sem A R t G) :=
  emit_uses (hR.keeps_quiet rfl) (fun _ => hR.keeps_publish he)
    fun _ _ _ _ _ _ => hR.keeps_quiet rfl

theorem Tolerant.get_keeps (hR : Tolerant R) {conversationId tenantId : String} :
    (get conversationId tenantId : Talk V Conversation).Uses (Keeps cfg.sem A R t G) := by
  refine Prog.Uses.bind (Prog.Uses.call (hR.keeps_quiet rfl)) fun found => ?_
  cases found with
  | some c => exact Prog.Uses.pure _
  | none => exact Prog.Uses.throw _

theorem Tolerant.update_keeps (hR : Tolerant R) {conversationId tenantId userId : String}
    {title : Option String} {status : Option ConversationStatus} :
    (update cfg conversationId tenantId userId title status).Uses (Keeps cfg.sem A R t G) :=
  Prog.Uses.bind hR.get_keeps fun _ => Prog.Uses.bind (Prog.Uses.raiseIf _ _) fun _ =>
    Prog.Uses.bind (Prog.Uses.call (hR.keeps_quiet rfl)) fun _ =>
      Prog.Uses.bind (hR.emit_keeps fun _ _ _ _ h => nomatch h) fun _ => Prog.Uses.pure _

theorem Tolerant.cancel_keeps (hR : Tolerant R) {conversationId tenantId : String} :
    (cancel conversationId tenantId : Talk V Unit).Uses (Keeps cfg.sem A R t G) :=
  Prog.Uses.bind hR.get_keeps fun _ => Prog.Uses.call (hR.keeps_quiet rfl)

theorem Tolerant.shutdown_keeps (hR : Tolerant R) :
    (shutdown : Talk V Unit).Uses (Keeps cfg.sem A R t G) := by
  refine Prog.Uses.bind (Prog.Uses.call (hR.keeps_quiet rfl)) fun tasks => ?_
  split
  · exact Prog.Uses.pure _
  · refine Prog.Uses.bind (Prog.Uses.call (hR.keeps_quiet rfl)) fun _ =>
      Prog.Uses.bind (Prog.Uses.call (hR.keeps_quiet rfl)) fun pending => ?_
    split
    · exact Prog.Uses.pure _
    · exact Prog.Uses.call (hR.keeps_quiet rfl)

theorem ConversationStore.mem_pendingMessages {s : ConversationStore V} {limit : Nat}
    {m : ConversationMessage V} (h : m ∈ s.pendingMessages limit) :
    m ∈ s.all ∧ m.role = .assistant := by
  have h := List.mem_filter.1 ((List.mem_insertionSort _).1 (List.mem_of_mem_take h))
  exact ⟨h.1, (of_decide_eq_true h.2).1⟩

theorem ConversationService.recoverAll_uses {P : ConversationOp V → Prop} {l : List (ConversationMessage V)}
    (hg : ∀ c tenantId, P (.get c tenantId))
    (hm : ∀ m ∈ l, P (.updateMessage .recovered (interrupted cfg m)) ∧
      ∀ c data, (emit cfg c "assistant.message.failed" data (some m.id)).Uses P) {n : Nat} :
    (recoverAll cfg l n).Uses P := by
  induction l generalizing n with
  | nil => exact Prog.Uses.pure _
  | cons m l ih =>
    obtain ⟨hu, he⟩ := hm m List.mem_cons_self
    refine Prog.Uses.bind ?_ fun _ => ih fun m' hm' => hm m' (List.mem_cons_of_mem _ hm')
    refine Prog.Uses.bind (Prog.Uses.call (hg _ _)) fun found => ?_
    cases found with
    | none => exact Prog.Uses.pure _
    | some c =>
      exact Prog.Uses.bind (Prog.Uses.call hu) fun _ =>
        Prog.Uses.bind (he _ _) fun _ => Prog.Uses.pure _

theorem Tolerant.recover_safe (hR : Tolerant R) {limit : Nat} {w : ConversationWorld V}
    (hu : ∀ m, Keeps cfg.sem A R t (Listed m) (.updateMessage .recovered (interrupted cfg m)))
    (he : ∀ (c : Conversation) id sequence data, Keeps cfg.sem A R t
      (fun w => t ∈ w.started ∧ w.turns.get t = none)
      (.publish ⟨"assistant.message.failed", c.id, c.tenantId, some id, sequence, data⟩))
    (hw : t ∈ w.started ∧ w.turns.get t = none) :
    Safe cfg.sem A R t (fun _ _ => True) (recover cfg limit) w := by
  refine Safe.bind (Safe.call fun w₁ hr hv a ha r w₂ hact => ?_)
  have hq : Quiet w₁ w₂ := ConversationConfig.act_quiet rfl hact
  obtain ⟨hv₂, hr₂⟩ := hR.quiet hv hq
  refine ⟨hv₂, fun t' _ => hr₂ t', ?_⟩
  rcases r with e | pending
  · trivial
  -- what has been listed has been recorded, and stays so
  let G : ConversationWorld V → Prop := fun w =>
    (t ∈ w.started ∧ w.turns.get t = none) ∧ ∀ m ∈ pending, Listed m w
  have hcall : R.Stable t fun w => t ∈ w.started ∧ w.turns.get t = none :=
    fun w w' h hg => ⟨(hR.grown h).started hg.1, (hR.grown h).call hg.1 hg.2⟩
  have hG : R.Stable t G := fun w w' h hg =>
    ⟨hcall w w' h hg.1, fun m hm => (hR.grown h).listed (hg.2 m hm)⟩
  have hw₂ : G w₂ := by
    obtain ⟨c, -, hc⟩ | ⟨C, e, hx, -⟩ := ConversationConfig.act_inside rfl hact
    · refine ⟨hcall _ _ (hr₂ t) (hcall _ _ hr hw), fun m hm => ?_⟩
      cases hc
      obtain ⟨hall, hrole⟩ := ConversationStore.mem_pendingMessages hm
      obtain ⟨x, hx, ht, hxr⟩ := (hR.sound hv).filed m hall
      exact ⟨⟨x, hx, ht, hxr.trans hrole⟩, hrole⟩
    · cases hx
  have keeps : ∀ {G' : ConversationWorld V → Prop} {o : ConversationOp V},
      Keeps cfg.sem A R t G' o → (∀ w, G w → G' w) → Keeps cfg.sem A R t G o :=
    fun h hg b w a r w' hv hw ha hact => h b w a r w' hv (hg w hw) ha hact
  refine (Safe.of_uses hG ?_ hw₂).mono fun _ _ _ => trivial
  refine recoverAll_uses (fun _ _ => hR.keeps_quiet rfl) fun m hm => ⟨?_, fun c data => ?_⟩
  · exact keeps (hu m) fun w hw => hw.2 m hm
  · exact emit_uses (hR.keeps_quiet rfl) (fun _ => keeps (he _ _ _ _) fun _ hw => hw.1)
      fun _ _ _ _ _ _ => hR.keeps_quiet rfl

end

/-! ## The response -/

/-- A new state of the message `a`. -/
structure ConversationMessage.Renews (m a : ConversationMessage V) : Prop where
  id : m.id = a.id
  conversationId : m.conversationId = a.conversationId
  tenantId : m.tenantId = a.tenantId
  role : m.role = a.role

theorem ConversationMessage.Renews.listed {m a : ConversationMessage V} {w : ConversationWorld V}
    (h : m.Renews a) (ha : Listed a w) : Listed m w := by
  obtain ⟨⟨x, hx, ht, hr⟩, har⟩ := ha
  refine ⟨⟨x, ?_, ht.trans h.tenantId.symm, hr⟩, h.role.trans har⟩
  rw [h.conversationId, h.id]
  exact hx

namespace ConversationService
variable {cfg : ConversationConfig V} {P : ConversationOp V → Prop} {x : Turn V}

/-- The operations of a response besides its updates. -/
structure Replying (P : ConversationOp V → Prop) (x : Turn V) : Prop where
  quiet : ∀ o : ConversationOp V, o.isQuiet → P o
  publish : ∀ e : ConversationEvent V, e.messageId = some x.assistantMessage.id → P (.publish e)

theorem emitFor_uses (h : Replying P x) {type : String} {data : Dict String V} :
    (emitFor cfg x type data).Uses P :=
  emit_uses (h.quiet _ rfl) (fun _ => h.publish _ rfl) fun _ _ _ _ _ _ => h.quiet _ rfl

theorem handle_uses (h : Replying P x) (handler : ConversationHandler V)
    {history : List (ConversationMessage V)} :
    (handler.handle x history (emitFor cfg x)).Uses P :=
  handler.uses P x history _ (fun _ => h.quiet _ rfl) fun _ _ => emitFor_uses h

theorem suggestFollowups_uses (h : Replying P x) {r : ConversationTurnResult V} :
    (suggestFollowups cfg x r).Uses P := by
  unfold suggestFollowups
  split
  · refine Prog.Uses.handle (Prog.Uses.call (h.quiet _ rfl)) fun e => ?_
    split
    · exact Prog.Uses.pure _
    · exact Prog.Uses.throw _
  · exact Prog.Uses.pure _

theorem completed_renews {r : ConversationTurnResult V} {followups : List String} :
    (completed cfg x r followups).Renews x.assistantMessage := ⟨rfl, rfl, rfl, rfl⟩

theorem reply_uses (h : Replying P x)
    (hu : ∀ site m, m.Renews x.assistantMessage → P (.updateMessage site m)) :
    (reply cfg x).Uses P := by
  refine Prog.Uses.bind (Prog.Uses.call (h.quiet _ rfl)) fun history =>
    Prog.Uses.bind (Prog.Uses.lift _) fun handler =>
      Prog.Uses.bind (handle_uses h handler) fun result =>
        Prog.Uses.bind (suggestFollowups_uses h) fun followups =>
          Prog.Uses.bind (Prog.Uses.call (hu _ _ completed_renews)) fun _ => ?_
  split
  · exact emitFor_uses h
  · exact emitFor_uses h

theorem recoverReply_uses (h : Replying P x)
    (hu : ∀ site m, m.Renews x.assistantMessage → m.status ≠ .completed →
      P (.updateMessage site m)) (e : Exn) :
    (recoverReply cfg x e).Uses P := by
  unfold recoverReply
  split
  · exact Prog.Uses.bind (Prog.Uses.call (hu _ _ ⟨rfl, rfl, rfl, rfl⟩ nofun)) fun _ =>
      emitFor_uses h
  · exact Prog.Uses.bind (Prog.Uses.call (hu _ _ ⟨rfl, rfl, rfl, rfl⟩ nofun)) fun _ =>
      Prog.Uses.bind (emitFor_uses h) fun _ => Prog.Uses.throw _

theorem respond_uses (h : Replying P x)
    (hu : ∀ site m, m.Renews x.assistantMessage → P (.updateMessage site m)) :
    (respond cfg x).Uses P :=
  Prog.Uses.bind (Prog.Uses.call (h.quiet _ rfl)) fun _ =>
    Prog.Uses.bind (Prog.Uses.call (hu _ _ ⟨rfl, rfl, rfl, rfl⟩)) fun _ =>
      Prog.Uses.bind (emitFor_uses h) fun _ =>
        Prog.Uses.handle (reply_uses h hu) fun e =>
          recoverReply_uses h (fun site m hm _ => hu site m hm) e

end ConversationService

/-! ## The system -/

theorem ConversationWorld.effect_started {cfg : ConversationConfig V} {t : Nat}
    {w w' : ConversationWorld V} {o : ConversationOp V} {c : o.Choice} {r : Except Exn o.Resp}
    (h : w.effect cfg t o c = some (r, w')) : w'.started = w.started := by
  cases o <;> simp only [effect] at h <;> (repeat' split at h) <;> cases h <;> rfl

/-- Only tasks that have not started become responses. -/
theorem ConversationWorld.effect_turns {cfg : ConversationConfig V} {t : Nat}
    {w w' : ConversationWorld V} {o : ConversationOp V} {c : o.Choice} {r : Except Exn o.Resp}
    (h : w.effect cfg t o c = some (r, w')) {u : Nat} (hu : u ∈ w.started) :
    w'.turns.get u = w.turns.get u := by
  cases o with
  | createTask x =>
    simp only [effect] at h
    split at h
    · cases h
    · rename_i hc
      push Not at hc
      cases h
      refine Dict.get_set_ne ?_
      rintro rfl
      exact hc.1 hu
  | _ =>
    simp only [effect] at h
    (repeat' split at h) <;> cases h <;> rfl

/-- A task that has started stays a response, or none. -/
theorem ConversationConfig.act_turns {cfg : ConversationConfig V} {t : Nat} {b : Bool}
    {w w' : ConversationWorld V} {o : ConversationOp V} {a : Act cfg.sem.Ans Exn o}
    {r : Except Exn o.Resp} (h : cfg.sem.act t b w o a = some (r, w')) {u : Nat}
    (hu : u ∈ w.started) : u ∈ w'.started ∧ w'.turns.get u = w.turns.get u := by
  obtain ⟨C, ⟨c, hc⟩ | ⟨e, -, -, rfl | ⟨c, r', hc⟩⟩⟩ := ConversationConfig.act_cases h
  · exact ⟨(effect_started hc).symm ▸ hu, effect_turns hc hu⟩
  · exact ⟨hu, rfl⟩
  · exact ⟨(effect_started hc).symm ▸ hu, effect_turns hc hu⟩

section
variable {cfg : ConversationConfig V} {A : Allow cfg.sem.Ans Exn (ConversationWorld V)}
  {calls : Nat → ConversationCall V} {R : Contract (ConversationWorld V)}
  {Q : Nat → Except Exn (ConversationReply V) → ConversationWorld V → Prop}

theorem conversationSys_once :
    Sys.Once (conversationSys cfg A calls) fun w => {t | t ∈ w.started} where
  enter h := by
    obtain ⟨ht, -, rfl⟩ := h
    exact ⟨ht, fun u hu => Finset.mem_insert.2 hu⟩
  run h := by
    obtain ⟨C, ⟨c, hc⟩ | ⟨e, -, -, rfl | ⟨c, r', hc⟩⟩⟩ := ConversationConfig.act_cases h
    · exact fun u hu => (effect_started hc).symm ▸ hu
    · exact fun u hu => hu
    · exact fun u hu => (effect_started hc).symm ▸ hu
  fin := id
  kill h := h.elim

/-- A call has entered, and got no identifier yet. -/
structure ConversationWorld.Entered (w : ConversationWorld V) (t : Nat) : Prop where
  started : t ∈ w.started
  call : w.turns.get t = none
  unissued : ∀ id, w.issued.get id ≠ some (some t)

theorem Tolerant.respects (hR : Tolerant R)
    (call : ∀ t w, R.valid w → w.Entered t →
      Safe cfg.sem A R t (Q t) ((calls t).task cfg) w)
    (turn : ∀ t x w, R.valid w → t ∈ w.started → w.turns.get t = some x →
      (∀ m, w.stored x = some m → m.status ≠ .completed) → Safe cfg.sem A R t (Q t) (Talk.drop (ConversationService.respond cfg x)) w) :
    Sys.Respects (conversationSys cfg A calls) R Q where
  enter w t p w' hv h := by
    obtain ⟨ht, rfl, rfl⟩ := h
    obtain ⟨hv', hr⟩ := hR.enter (t := t) hv
    refine ⟨hv', fun t' _ => hr t', ?_⟩
    unfold talkOf
    split
    · rename_i x hx
      exact turn t x _ hv' (Finset.mem_insert_self _ _) hx fun m hm =>
        (hR.sound hv).unstarted t x m hx ht hm
    · rename_i hx
      refine call t _ hv' ⟨Finset.mem_insert_self _ _, hx, fun id hid => ?_⟩
      exact ht ((hR.sound hv).started id t hid)
  fin t x w hv _ := by
    have hq : Quiet w { w with ended := w.ended.set t x } := ⟨rfl, rfl, rfl, rfl, rfl⟩
    exact ⟨(hR.quiet hv hq).1, fun t' _ => (hR.quiet hv hq).2 t'⟩
  kill _ _ _ _ h := h.elim

end

theorem ConversationWorld.Fresh.sound {w : ConversationWorld V} (h : w.Fresh) : Sound w where
  filed m hm := ⟨m, h.filed m hm, rfl, rfl⟩
  issued c id m hm := by
    obtain ⟨hall, rfl⟩ := ConversationStore.mem_all_of_message hm
    exact h.issued m hall
  started id t hid := nomatch h.unissued id _ hid
  turn d x hx := by
    rw [h.turns] at hx
    cases hx
  distinct d d' x x' hx := by
    rw [h.turns] at hx
    cases hx
  unstarted d x m hx := by
    rw [h.turns] at hx
    cases hx

end TracciaRuntime
