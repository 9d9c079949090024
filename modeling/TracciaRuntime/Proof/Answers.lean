/-
  Traccia Runtime formalization — delivered answers.

  * `Answered`: the message of an assistant is COMPLETED;
  * `ConversationOp.Delivers`: what comes after that passes, and no recovery comes in;
  * `answerContract`: what the responses rely on then;
  * `answer_final`: a COMPLETED message stays as it is, and when its response has ended, the last
    event of the message says so.
-/
import TracciaRuntime.Proof.Replies

namespace TracciaRuntime

open Py Async ConversationWorld ConversationService

variable {V : Type}

/-- The message of an assistant with this identifier is COMPLETED. -/
def ConversationWorld.Answered (w : ConversationWorld V) (id : String) : Prop :=
  ∃ c m, w.store.message c id = some m ∧ m.role = .assistant ∧ m.status = .completed

/-- The update that completes a message is not interrupted after it took effect, what announces
    it passes, and no recovery fails a message that is COMPLETED or says that it has failed. -/
def ConversationOp.Delivers {cfg : ConversationConfig V} (w : ConversationWorld V) :
    (o : ConversationOp V) → Act cfg.sem.Ans Exn o → Prop
  | .updateMessage .result m, a => m.status = .completed → ∀ e c, a ≠ .after e c
  | .updateMessage .recovered m, _ => ¬ w.Answered m.id
  | .nextSequence _ _ (some id), a => w.Answered id → Passes a
  | .publish e, a => ∀ id, e.messageId = some id → w.Answered id →
    e.type = "assistant.message.completed" ∧ Passes a
  | .audit _ _ _ _ _ (some id), a => w.Answered id → Passes a
  | _, _ => True

/-- The answers are delivered. -/
def ConversationConfig.delivers (cfg : ConversationConfig V) :
    Allow cfg.sem.Ans Exn (ConversationWorld V) :=
  fun _ w _ a => ConversationOp.Delivers w _ a

namespace Answers

/-- The response has completed its message. -/
def Complete (x : Turn V) (w : ConversationWorld V) : Prop :=
  ∃ m, w.stored x = some m ∧ m.status = .completed

/-- The last event of the message says that it is COMPLETED. -/
def Announced (x : Turn V) (w : ConversationWorld V) : Prop :=
  ∃ e rest, w.told x = e :: rest ∧ e.type = "assistant.message.completed"

/-- A step of another task than `t`. -/
structure Delivery (t : Nat) (w w' : ConversationWorld V) : Prop where
  kept : ∀ d x m, w.turns.get d = some x → w.stored x = some m → m.status = .completed →
    w'.stored x = some m
  told : ∀ x, w.turns.get t = some x → Complete x w → w'.told x = w.told x
  mine : ∀ x, w.turns.get t = some x → Complete x w' → Complete x w

section
variable {t : Nat} {x : Turn V} {w w₁ w' : ConversationWorld V}

theorem Complete.kept (h : Complete x w) (hx : w.turns.get t = some x) (hd : Delivery t w w') :
    Complete x w' := by
  obtain ⟨m, hm, hc⟩ := h
  exact ⟨m, hd.kept t x m hx hm hc, hc⟩

theorem Delivery.refl : Delivery t w w := ⟨fun _ _ _ _ h _ => h, fun _ _ _ => rfl, fun _ _ h => h⟩

theorem Delivery.trans (hg : Grown t w w₁) (h : Delivery t w w₁) (h' : Delivery t w₁ w') :
    Delivery t w w' where
  kept d x m hx hm hc := h'.kept d x m (hg.turns d x hx) (h.kept d x m hx hm hc) hc
  told x hx hc := (h'.told x (hg.turns t x hx) (hc.kept hx h)).trans (h.told x hx hc)
  mine x hx hc := h.mine x hx (h'.mine x (hg.turns t x hx) hc)

theorem Delivery.of_untouched (h : ∀ d, Untouched d w w') : Delivery t w w' where
  kept d x _ hx hm _ := (h d x hx).1.trans hm
  told x hx _ := (h t x hx).2
  mine x hx hc := by
    obtain ⟨m, hm, hc⟩ := hc
    exact ⟨m, (h t x hx).1.symm.trans hm, hc⟩

/-- A step of the response `x` of task `t`, which leaves no COMPLETED message that was there. -/
theorem Delivery.of_turn {t' : Nat} (hx : w.turns.get t = some x) (hn : ¬ Complete x w)
    (hother : ∀ d, d ≠ t → Untouched d w w') (hmine : t' = t → ¬ Complete x w') :
    Delivery t' w w' where
  kept d y m hy hm hc := by
    by_cases hd : d = t
    · subst hd
      cases hx.symm.trans hy
      exact absurd ⟨m, hm, hc⟩ hn
    · exact (hother d hd y hy).1.trans hm
  told y hy hc := by
    by_cases hd : t' = t
    · subst hd
      cases hx.symm.trans hy
      exact absurd hc hn
    · exact (hother t' hd y hy).2
  mine y hy hc := by
    by_cases hd : t' = t
    · subst hd
      cases hx.symm.trans hy
      exact absurd hc (hmine rfl)
    · obtain ⟨m, hm, hc⟩ := hc
      exact ⟨m, (hother t' hd y hy).1.symm.trans hm, hc⟩

theorem Complete.answered (hw : Sound w) (hx : w.turns.get t = some x) (h : Complete x w) :
    w.Answered x.assistantMessage.id := by
  obtain ⟨m, hm, hc⟩ := h
  obtain ⟨⟨y, hy, -, hr⟩, -⟩ := hw.turn t x hx
  have hym : y = m := Option.some.inj (hy.symm.trans hm)
  exact ⟨_, m, hm, hym ▸ hr, hc⟩

end

/-- No other task completes the message of a response, changes it when it is COMPLETED, or
    publishes an event of it then. -/
def answerContract : Contract (ConversationWorld V) :=
  turnContract Delivery (fun _ _ => .refl) fun _ _ _ _ => Delivery.trans

theorem answer_tolerant : Tolerant (answerContract (V := V)) :=
  turnContract_tolerant fun _ _ _ => .of_untouched

section
variable {cfg : ConversationConfig V} {t : Nat} {x : Turn V} {w : ConversationWorld V}

/-- The response has not completed its message yet. -/
def Open (t : Nat) (x : Turn V) (w : ConversationWorld V) : Prop :=
  Responding t x w ∧ ¬ Complete x w

theorem open_stable : (answerContract (V := V)).Stable t (Open t x) :=
  fun _ _ h hx => ⟨hx.1.grown h.1, fun hc => hx.2 (h.2.mine x hx.1.2 hc)⟩

/-- What the response awaits besides its updates leaves its message open. -/
theorem open_replying : Replying (Keeps cfg.sem cfg.delivers answerContract t (Open t x)) x where
  quiet o ho := answer_tolerant.keeps_quiet ho
  publish e he := by
    intro b w a r w' hv hg ha hact
    obtain ⟨hw', hgr, hother, hs, -⟩ := turn_publish hv hg.1 he hact
    refine ⟨hw', fun t' => ⟨hgr t', .of_turn hg.1.2 hg.2 hother fun _ hc => hg.2 ?_⟩⟩
    obtain ⟨m, hm, hc⟩ := hc
    exact ⟨m, hs.symm.trans hm, hc⟩

/-- Nor does an update that completes nothing. -/
theorem open_update {site : UpdateSite} {m : ConversationMessage V}
    (hm : m.Renews x.assistantMessage) (hc : m.status ≠ .completed) :
    Keeps cfg.sem cfg.delivers answerContract t (Open t x) (.updateMessage site m) := by
  intro b w a r w' hv hg ha hact
  obtain ⟨hw', hgr, hother, -, hcases⟩ := turn_update hv hg.1 hm hact
  refine ⟨hw', fun t' => ⟨hgr t', .of_turn hg.1.2 hg.2 hother fun _ hdone => ?_⟩⟩
  obtain ⟨y, hy, hyc⟩ := hdone
  rcases hcases with ⟨hs, -⟩ | ⟨hs, -⟩
  · exact hg.2 ⟨y, hs.symm.trans hy, hyc⟩
  · cases hs.symm.trans hy
    exact hc hyc

/-- How a response ends: if its message is COMPLETED, it has said so. -/
def Settled (t : Nat) (x : Turn V) (w : ConversationWorld V) : Prop :=
  Responding t x w ∧ (Complete x w → Announced x w)

theorem Open.settled (h : Open t x w) : Settled t x w := ⟨h.1, fun hc => absurd hc h.2⟩

/-- A program that leaves the message open. -/
theorem open_safe {α : Type} {p : Talk V α} (h : Open t x w)
    (hp : p.Uses (Keeps cfg.sem cfg.delivers answerContract t (Open t x))) :
    Safe cfg.sem cfg.delivers answerContract t (fun _ w' => Open t x w') p w :=
  (Safe.of_uses open_stable hp h).mono fun _ _ h => h.1

/-! ## The announcement -/

/-- The response has completed its message. -/
def Closed (t : Nat) (x : Turn V) (w : ConversationWorld V) : Prop :=
  Responding t x w ∧ Complete x w

theorem Closed.grown {w' : ConversationWorld V} (h : Closed t x w)
    (hr : answerContract.rely t w w') : Closed t x w' :=
  ⟨h.1.grown hr.1, h.2.kept h.1.2 hr.2⟩

theorem Announced.grown {w' : ConversationWorld V} (h : Announced x w) (hx : Closed t x w)
    (hr : answerContract.rely t w w') : Announced x w' := by
  obtain ⟨e, rest, ht, he⟩ := h
  exact ⟨e, rest, (hr.2.told x hx.1.2 hx.2).trans ht, he⟩

/-- A step that has to pass, and that nobody sees. -/
theorem closed_pass {o : ConversationOp V} {G : ConversationWorld V → Prop} (ho : o.isQuiet)
    (hp : ∀ (w : ConversationWorld V) (a : Act cfg.sem.Ans Exn o),
      w.Answered x.assistantMessage.id → cfg.delivers t w o a → Passes a)
    (hok : ∀ (w : ConversationWorld V) c r w', w.effect cfg t o c = some (r, w') → ∃ v, r = .ok v)
    (hG : ∀ w w', answerContract.rely t w w' → Closed t x w ∧ G w → G w')
    (hx : Closed t x w ∧ G w) :
    Safe cfg.sem cfg.delivers answerContract t
      (fun r w' => (∃ v, r = .ok v) ∧ Closed t x w' ∧ G w') (attend o) w := by
  refine Safe.call fun w₁ hr hv a ha r w₂ hact => ?_
  have hx₁ : Closed t x w₁ ∧ G w₁ := ⟨hx.1.grown hr, hG _ _ hr hx⟩
  obtain ⟨hv₂, hr₂⟩ := answer_tolerant.quiet hv (ConversationConfig.act_quiet ho hact)
  obtain ⟨c, hc⟩ := (hp w₁ a (hx₁.1.2.answered hv hx₁.1.1.2) ha).act hact
  exact ⟨hv₂, fun t' _ => hr₂ t', hok w₁ c r w₂ hc, hx₁.1.grown (hr₂ t), hG _ _ (hr₂ t) hx₁⟩

/-- The event of a COMPLETED message is published. -/
theorem closed_publish {e : ConversationEvent V} (he : e.messageId = some x.assistantMessage.id)
    (htype : e.type = "assistant.message.completed") (hx : Closed t x w) :
    Safe cfg.sem cfg.delivers answerContract t
      (fun r w' => r = .ok () ∧ Closed t x w' ∧ Announced x w') (attend (.publish e)) w := by
  refine Safe.call fun w₁ hr hv a ha r w₂ hact => ?_
  have hx₁ := hx.grown hr
  obtain ⟨hw₂, hg, hother, hs, hcases⟩ := turn_publish hv hx₁.1 he hact
  obtain ⟨c, hc⟩ := (ha _ he (hx₁.2.answered hv hx₁.1.2)).2.act hact
  have hok : r = .ok () := by cases hc; rfl
  have htold : w₂.told x = e :: w₁.told x := by
    rcases hcases with ⟨-, x, hx⟩ | h
    · rw [hok] at hx
      cases hx
    · exact h
  refine ⟨hw₂, fun t' ht => ⟨hg t', ?_⟩, hok, ⟨hx₁.1.grown (hg t), ?_⟩, e, _, htold, htype⟩
  · refine ⟨fun d y m hy hm hc => ?_, fun y hy _ => (hother t' ht y hy).2, fun y hy hc => ?_⟩
    · by_cases hd : d = t
      · subst hd
        cases hx₁.1.2.symm.trans hy
        exact hs.trans hm
      · exact (hother d hd y hy).1.trans hm
    · obtain ⟨m, hm, hc⟩ := hc
      exact ⟨m, (hother t' ht y hy).1.symm.trans hm, hc⟩
  · obtain ⟨m, hm, hc⟩ := hx₁.2
    exact ⟨m, hs.trans hm, hc⟩

theorem announced_safe {data : Dict String V} (hx : Closed t x w) :
    Safe cfg.sem cfg.delivers answerContract t
      (fun r w' => r = .ok () ∧ Closed t x w' ∧ Announced x w')
      (emitFor cfg x "assistant.message.completed" data) w := by
  refine Safe.bind ((closed_pass (G := fun _ => True) (by rfl) (by exact fun _ _ h ha => ha h)
    (fun w c r w' h => by cases h; exact ⟨c, rfl⟩) (fun _ _ _ _ => trivial)
    ⟨hx, trivial⟩).mono fun r w₁ h₁ => ?_)
  obtain ⟨⟨sequence, rfl⟩, hx₁, -⟩ := h₁
  refine Safe.bind ((closed_publish (by rfl) (by rfl) hx₁).mono fun r w₂ h₂ => ?_)
  obtain ⟨rfl, hx₂⟩ := h₂
  dsimp only
  split
  · refine (closed_pass (by rfl) (by exact fun _ _ h ha => ha h)
      (fun w c r w' h => by cases h; exact ⟨(), rfl⟩) (fun _ _ hr h => h.2.grown h.1 hr)
      hx₂).mono fun r w₃ h₃ => ?_
    obtain ⟨⟨_, rfl⟩, hx₃⟩ := h₃
    exact ⟨rfl, hx₃⟩
  · exact ⟨rfl, hx₂⟩

/-! ## The response -/

/-- The `try` block: if it raises, the message is not COMPLETED. -/
def Replied (t : Nat) (x : Turn V) (r : Except Exn Unit) (w : ConversationWorld V) : Prop :=
  Settled t x w ∧ ((∃ e, r = .error e) → Open t x w)

theorem Open.replied {r : Except Exn Unit} (h : Open t x w) : Replied t x r w :=
  ⟨h.settled, fun _ => h⟩

/-- The update with the result of the handler. -/
theorem result_safe {m : ConversationMessage V} (hm : m.Renews x.assistantMessage)
    (hx : Open t x w) :
    Safe cfg.sem cfg.delivers answerContract t
      (fun r w' => Open t x w' ∧ (r = .ok () → m.status ≠ .completed) ∨
        r = .ok () ∧ m.status = .completed ∧ Closed t x w')
      (attend (.updateMessage .result m)) w := by
  refine Safe.call fun w₁ hr hv a ha r w₂ hact => ?_
  have hx₁ := open_stable _ _ hr hx
  obtain ⟨hw₂, hg, hother, -, hcases⟩ := turn_update hv hx₁.1 hm hact
  refine ⟨hw₂, fun t' ht => ⟨hg t', .of_turn hx₁.1.2 hx₁.2 hother fun he => absurd he ht⟩, ?_⟩
  rcases hcases with ⟨hs, ⟨e, rfl⟩, -⟩ | ⟨hs, hend⟩
  · refine .inl ⟨⟨hx₁.1.grown (hg t), fun hc => hx₁.2 ?_⟩, fun h => by cases h⟩
    obtain ⟨y, hy, hc⟩ := hc
    exact ⟨y, hs.symm.trans hy, hc⟩
  · by_cases hc : m.status = .completed
    · rcases hend with rfl | ⟨e, c, rfl⟩
      · exact .inr ⟨rfl, hc, hx₁.1.grown (hg t), m, hs, hc⟩
      · exact absurd rfl (ha hc e c)
    · refine .inl ⟨⟨hx₁.1.grown (hg t), fun hdone => ?_⟩, fun _ => hc⟩
      obtain ⟨y, hy, hyc⟩ := hdone
      cases hs.symm.trans hy
      exact hc hyc

theorem reply_answers (hx : Open t x w) :
    Safe cfg.sem cfg.delivers answerContract t (Replied t x) (reply cfg x) w := by
  have hreply : Replying (Keeps cfg.sem cfg.delivers answerContract t (Open t x)) x := open_replying
  refine Safe.bind ((open_safe hx (Prog.Uses.call (hreply.quiet _ rfl))).mono fun r w₁ hx₁ => ?_)
  rcases r with e | history
  · exact hx₁.replied
  refine Safe.bind (Safe.lift ?_)
  split
  rotate_left
  · exact hx₁.replied
  rename_i handler _
  refine Safe.bind ((open_safe hx₁ (handle_uses hreply handler)).mono fun r w₂ hx₂ => ?_)
  rcases r with e | result
  · exact hx₂.replied
  refine Safe.bind ((open_safe hx₂ (suggestFollowups_uses hreply)).mono fun r w₃ hx₃ => ?_)
  rcases r with e | followups
  · exact hx₃.replied
  refine Safe.bind ((result_safe completed_renews hx₃).mono fun r w₄ h₄ => ?_)
  rcases r with e | _
  · rcases h₄ with ⟨hx₄, -⟩ | ⟨he, -⟩
    · exact hx₄.replied
    · cases he
  dsimp only
  split
  · -- the handler has failed, and so has the message
    rename_i hfailed
    have hx₄ : Open t x w₄ := by
      rcases h₄ with ⟨hx₄, -⟩ | ⟨-, hc, -⟩
      · exact hx₄
      · simp [completed, hfailed] at hc
    exact (open_safe hx₄ (emitFor_uses hreply)).mono fun _ _ h => h.replied
  · rename_i hcompleted
    have hx₄ : Closed t x w₄ := by
      rcases h₄ with ⟨-, hn⟩ | ⟨-, -, hx₄⟩
      · exact absurd (by simp [completed, hcompleted]) (hn rfl)
      · exact hx₄
    refine (announced_safe hx₄).mono fun r w₅ h₅ => ?_
    obtain ⟨rfl, hx₅, ha⟩ := h₅
    refine ⟨⟨hx₅.1, fun _ => ha⟩, fun herror => ?_⟩
    obtain ⟨e, he⟩ := herror
    cases he

/-- A response leaves no COMPLETED message of which it has not said so. -/
theorem respond_answers (hx : Open t x w) :
    Safe cfg.sem cfg.delivers answerContract t (fun _ w' => Settled t x w') (respond cfg x) w := by
  have hreply : Replying (Keeps cfg.sem cfg.delivers answerContract t (Open t x)) x := open_replying
  refine Safe.bind ((open_safe hx (Prog.Uses.call (hreply.quiet _ rfl))).mono fun r w₁ hx₁ => ?_)
  rcases r with e | _
  · exact hx₁.settled
  refine Safe.bind ((open_safe hx₁ (Prog.Uses.call (open_update (by exact ⟨rfl, rfl, rfl, rfl⟩)
    (by simp [streaming])))).mono fun r w₂ hx₂ => ?_)
  rcases r with e | _
  · exact hx₂.settled
  refine Safe.bind ((open_safe hx₂ (emitFor_uses hreply)).mono fun r w₃ hx₃ => ?_)
  rcases r with e | _
  · exact hx₃.settled
  refine Safe.handle ((reply_answers hx₃).mono fun r w₄ h₄ => ?_)
  rcases r with e | _
  · exact (open_safe (h₄.2 ⟨e, rfl⟩) (recoverReply_uses hreply (fun _ _ => open_update) e)).mono
      fun _ _ h => h.settled
  · exact h₄.1

end

/-! ## The system -/

section
variable (cfg : ConversationConfig V) (calls : Nat → ConversationCall V)

/-- How a task ends. -/
def EndsSettled (t : Nat) (_ : Except Exn (ConversationReply V)) (w : ConversationWorld V) : Prop :=
  t ∈ w.started ∧ ∀ x, w.turns.get t = some x → Settled t x w

/-- A recovery only fails messages that are not COMPLETED. -/
theorem answer_recovered {t : Nat} {m : ConversationMessage V} :
    Keeps cfg.sem cfg.delivers answerContract t (Listed m)
      (.updateMessage .recovered (interrupted cfg m)) := by
  intro b w a r w' hv hm ha hact
  rcases ConversationConfig.act_updateMessage hact with ⟨hq, -⟩ | ⟨store, hs, hst, -⟩
  · exact answer_tolerant.quiet hv hq
  · have hlisted : Listed (interrupted cfg m) w := hm
    obtain ⟨hw, hg⟩ := update_sound hv hlisted (by intro h; cases h) hs
    obtain ⟨hother, -, hself⟩ := ConversationStore.updateMessage_cases hs
    have hn : ¬ w.Answered m.id := ha
    -- the message of a response is left alone or is failed
    have hstored : ∀ d y, w.turns.get d = some y →
        ({ w with store } : ConversationWorld V).stored y = w.stored y ∨ ¬ Complete y w ∧
          ¬ Complete y { w with store } := by
      intro d y hy
      by_cases he : (y.assistantMessage.conversationId, y.assistantMessage.id) =
          (m.conversationId, m.id)
      · obtain ⟨hc, hi⟩ := Prod.mk.inj he
        rcases hself with hs | ⟨hs, -⟩
        · refine .inl ?_
          simp only [stored, hc, hi]
          exact hs
        · refine .inr ⟨fun hdone => hn (hi ▸ hdone.answered hv hy), fun hdone => ?_⟩
          obtain ⟨z, hz, hzc⟩ := hdone
          simp only [stored, hc, hi] at hz
          cases hs.symm.trans hz
          cases hzc
      · exact .inl (hother _ _ he)
    have h := answer_tolerant.then_quiet (N := fun _ => True) (w := w)
      ⟨hw, fun t' _ => ⟨hg t', ⟨fun d y z hy hz hzc => ?_, fun _ _ _ => rfl,
        fun y hy hdone => ?_⟩⟩⟩ hst.quiet
    · exact h.imp_right fun h t' => h t' trivial
    · rcases hstored d y hy with he | ⟨hne, -⟩
      · exact he.trans hz
      · exact absurd ⟨z, hz, hzc⟩ hne
    · rcases hstored t' y hy with he | ⟨-, hne⟩
      · obtain ⟨z, hz, hzc⟩ := hdone
        exact ⟨z, he.symm.trans hz, hzc⟩
      · exact absurd hdone hne

/-- A recovery says of no COMPLETED message that it has failed. -/
theorem answer_publish {t : Nat} {c : Conversation} {id : String} {sequence : Nat}
    {data : Dict String V} {G : ConversationWorld V → Prop} :
    Keeps cfg.sem cfg.delivers answerContract t G
      (.publish ⟨"assistant.message.failed", c.id, c.tenantId, some id, sequence, data⟩) := by
  intro b w a r w' hv hg ha hact
  rcases ConversationConfig.act_publish hact with ⟨hq, -⟩ | hq
  · exact answer_tolerant.quiet hv hq
  · have hn : ¬ w.Answered id := by
      intro h
      have htype : "assistant.message.failed" = "assistant.message.completed" := (ha id rfl h).1
      exact absurd htype (by decide)
    have hsub := Finset.Subset.refl w.started
    have hfailed : ∀ t', Delivery t' w { w with events :=
        ⟨"assistant.message.failed", c.id, c.tenantId, some id, sequence, data⟩ :: w.events } := by
      refine fun t' => ⟨fun _ _ _ _ hm _ => hm, fun y hy hdone => ?_, fun _ _ h => h⟩
      have hne : id ≠ y.assistantMessage.id := fun he => hn (he ▸ hdone.answered hv hy)
      rw [told, told]
      exact List.filter_cons_of_neg (by simpa using hne)
    have hpublished : answerContract.valid { w with events :=
          ⟨"assistant.message.failed", c.id, c.tenantId, some id, sequence, data⟩ :: w.events } ∧
        ∀ t', True → answerContract.rely t' w { w with events :=
          ⟨"assistant.message.failed", c.id, c.tenantId, some id, sequence, data⟩ :: w.events } :=
      ⟨Sound.same hv rfl rfl rfl hsub, fun t' _ => ⟨Grown.same rfl rfl rfl hsub, hfailed t'⟩⟩
    have h := answer_tolerant.then_quiet (N := fun _ => True) hpublished hq
    exact h.imp_right fun h t' => h t' trivial

theorem answers_respect :
    Sys.Respects (conversationSys cfg cfg.delivers calls) answerContract EndsSettled := by
  refine answer_tolerant.respects (fun t w hv hw => ?_) fun t x w hv ht hx hn => ?_
  · refine (answer_tolerant.task_safe (fun m => answer_recovered cfg)
      (fun _ _ _ _ => answer_publish cfg) (calls t) hw).mono fun r w' h => ⟨h.1, fun x hx => ?_⟩
    exact absurd (h.2.symm.trans hx) (by simp)
  · have hopen : Open t x w := by
      refine ⟨⟨ht, hx⟩, fun hdone => ?_⟩
      obtain ⟨m, hm, hc⟩ := hdone
      exact hn m hm hc
    have hends : ∀ (r : Except Exn (ConversationReply V)) w', Settled t x w' →
        EndsSettled t r w' := by
      refine fun r w' h => ⟨h.1.1, fun y hy => ?_⟩
      cases h.1.2.symm.trans hy
      exact h
    refine Safe.bind ((respond_answers hopen).mono fun r w' h => ?_)
    cases r with
    | ok _ => exact hends _ _ h
    | error e => exact hends _ _ h

theorem endsSettled_lasting :
    Sys.Lasting (conversationSys cfg cfg.delivers calls) answerContract EndsSettled where
  rely {t r w w'} hr h := by
    refine ⟨hr.1.started h.1, fun x hx => ?_⟩
    rcases hw : w.turns.get t with _ | y
    · exact absurd ((hr.1.call h.1 hw).symm.trans hx) (by simp)
    · cases (hr.1.turns t y hw).symm.trans hx
      have hy := h.2 x hw
      refine ⟨hy.1.grown hr.1, fun hc => ?_⟩
      have hold := hr.2.mine x hw hc
      exact (hy.2 hold).grown ⟨hy.1, hold⟩ hr
  fin _ h := h

end

end Answers

namespace TalkSample

/-- A message of an assistant with this identifier is COMPLETED. -/
def answered (w : ConversationWorld String) (id : String) : Bool :=
  w.store.all.any fun m => m.id = id && m.role = .assistant && m.status = .completed

theorem answered_of_answered {w : ConversationWorld String} {id : String} (h : w.Answered id) :
    answered w id = true := by
  obtain ⟨c, m, hm, hr, hc⟩ := h
  obtain ⟨hall, hid⟩ := ConversationStore.mem_all_of_message hm
  exact List.any_eq_true.2 ⟨m, hall, by simp [hid, hr, hc]⟩

/-- Nothing fails, nothing is interrupted, and no recovery comes in. -/
def delivering : Player (conversationSys talking talking.delivers cancelling) :=
  conversationPlayer talking cancelling
    (fun _ w o a => passing a && match o with
      | .updateMessage .recovered m => !answered w m.id
      | .publish e => e.type = "assistant.message.completed" ||
        e.messageId.all fun id => !answered w id
      | _ => true)
    (by
      intro t w o a h
      obtain ⟨ha, ho⟩ := Bool.and_eq_true_iff.1 h
      have hp := passes_of_passing ha
      obtain ⟨c, rfl⟩ := hp
      cases o with
      | updateMessage site m =>
        cases site with
        | result => exact fun _ e c' h => by cases h
        | recovered =>
          intro hw
          simp [answered_of_answered hw] at ho
        | _ => trivial
      | publish e =>
        intro id hid hw
        refine ⟨?_, c, rfl⟩
        simpa [hid, answered_of_answered hw] using ho
      | nextSequence conversationId type messageId =>
        cases messageId with
        | none => trivial
        | some id => exact fun _ => ⟨c, rfl⟩
      | audit action outcome tenantId actorId resourceId messageId =>
        cases messageId with
        | none => trivial
        | some id => exact fun _ => ⟨c, rfl⟩
      | _ => trivial)

/-- The event that says that the answer is there is not published. -/
def unannounced {cfg : ConversationConfig String} :
    (o : ConversationOp String) → Act cfg.sem.Ans Exn o
  | .publish _ => .done (Answer.error (.other "ConnectionError"))
  | o => calmly o

end TalkSample

open TalkSample

/-- The status of the message of response 1. -/
def answerStatus (P : Pool (ConversationOp.Resp (V := String)) Exn (ConversationWorld String)
    (ConversationReply String)) : Option (Option MessageStatus) :=
  (P.world.turns.get 1).map fun x => (P.world.stored x).map (·.status)

end TracciaRuntime
