/-
  Traccia Runtime formalization — how responses end.

  * `turn_update`, `turn_publish`: what the awaits of a response do to its message and events;
  * `replies_final`: a response that has ended has left its message COMPLETED, FAILED or
    CANCELLED, unless it was stopped where no handler of its exceptions covers it.
-/
import TracciaRuntime.Proof.Submits

namespace TracciaRuntime

open Py Async ConversationWorld ConversationService

variable {V : Type}

/-! ## The awaits of a response -/

/-- Task `t` runs the response `x`. -/
def Responding (t : Nat) (x : Turn V) (w : ConversationWorld V) : Prop :=
  t ∈ w.started ∧ w.turns.get t = some x

theorem Responding.grown {t : Nat} {x : Turn V} {w w' : ConversationWorld V} (h : Responding t x w)
    (hg : Grown t w w') : Responding t x w' := ⟨hg.started h.1, hg.turns t x h.2⟩

section
variable {cfg : ConversationConfig V} {t : Nat} {b : Bool} {w w' : ConversationWorld V}
  {x : Turn V}

/-- An update replaces the message of the response, unless it is interrupted before. -/
theorem turn_update {site : UpdateSite} {m : ConversationMessage V}
    {a : Act cfg.sem.Ans Exn (.updateMessage site m : ConversationOp V)} {r : Except Exn Unit}
    (hw : Sound w) (hx : Responding t x w) (hm : m.Renews x.assistantMessage)
    (h : cfg.sem.act t b w (.updateMessage site m) a = some (r, w')) :
    Sound w' ∧ (∀ t', Grown t' w w') ∧ (∀ d, d ≠ t → Untouched d w w') ∧ w'.told x = w.told x ∧
      (w'.stored x = w.stored x ∧ (∃ e, r = .error e) ∧ (∃ e, a = .before e) ∨
        w'.stored x = some m ∧ (r = .ok () ∨ ∃ e c, a = .after e c)) := by
  have hlisted : Listed m w := hm.listed (hw.turn t x hx.2)
  obtain ⟨y, hy, hyt, -⟩ := hlisted.1
  obtain ⟨s', hs', hself⟩ := ConversationStore.updateMessage_of_message hy hyt
  rcases ConversationConfig.act_updateMessage h with ⟨hq, e, rfl, he⟩ | ⟨store, hs, hst, hr⟩
  · refine ⟨hq.sound hw, hq.grown, fun d _ z _ => ⟨hq.stored z, ?_⟩, ?_, .inl ⟨hq.stored x,
      ⟨e, rfl⟩, ?_⟩⟩
    · rw [told, told, hq.events]
    · rw [told, told, hq.events]
    · by_contra hb
      push Not at hb
      obtain ⟨e', he'⟩ := he hb
      rw [hs'] at he'
      cases he'
  · cases hs'.symm.trans hs
    have hq := hst.quiet
    obtain ⟨hw₁, hg₁⟩ := update_sound hw hlisted
      (fun _ => ⟨t, x, hx.2, hx.1, hm.id.symm⟩) hs
    obtain ⟨hother, -⟩ := ConversationStore.updateMessage_cases hs
    refine ⟨hq.sound hw₁, fun t' => (hg₁ t').trans (hq.grown t'), fun d hd z hz => ⟨?_, ?_⟩, ?_,
      .inr ⟨?_, hr⟩⟩
    · refine (hq.stored z).trans (hother _ _ fun he => hd ?_)
      exact hw.distinct d t z x hz hx.2 ((Prod.mk.inj he).2.trans hm.id)
    · rw [told, told, hq.events]
    · rw [told, told, hq.events]
    · refine (hq.stored x).trans ?_
      rw [stored, ← hm.conversationId, ← hm.id]
      exact hself

/-- An event of the response is published, or not. -/
theorem turn_publish {e : ConversationEvent V}
    {a : Act cfg.sem.Ans Exn (.publish e : ConversationOp V)} {r : Except Exn Unit}
    (hw : Sound w) (hx : Responding t x w) (he : e.messageId = some x.assistantMessage.id)
    (h : cfg.sem.act t b w (.publish e) a = some (r, w')) :
    Sound w' ∧ (∀ t', Grown t' w w') ∧ (∀ d, d ≠ t → Untouched d w w') ∧
      w'.stored x = w.stored x ∧
      (w'.told x = w.told x ∧ (∃ e, r = .error e) ∨ w'.told x = e :: w.told x) := by
  rcases ConversationConfig.act_publish h with ⟨hq, hr⟩ | hq
  · have htold : ∀ z, w'.told z = w.told z := fun z => by rw [told, told, hq.events]
    exact ⟨hq.sound hw, hq.grown, fun d _ z _ => ⟨hq.stored z, htold z⟩, hq.stored x,
      .inl ⟨htold x, hr⟩⟩
  · have hsub := Finset.Subset.refl w.started
    have hg : ∀ t', Grown t' w { w with events := e :: w.events } :=
      fun t' => Grown.same rfl rfl rfl hsub
    refine ⟨hq.sound (hw.same rfl rfl rfl hsub), fun t' => (hg t').trans (hq.grown t'),
      fun d hd z hz => ⟨hq.stored z, ?_⟩, hq.stored x, .inr ?_⟩
    · have hne : e.messageId ≠ some z.assistantMessage.id := by
        intro hz'
        rw [he] at hz'
        exact hd (hw.distinct d t z x hz hx.2 (Option.some.inj hz').symm)
      rw [told, told, hq.events]
      exact List.filter_cons_of_neg (by simpa using hne)
    · rw [told, told, hq.events]
      exact List.filter_cons_of_pos (by simpa using he)

end

/-! ## The final status -/

/-- The stored message of the response has ended. -/
def Final (x : Turn V) (w : ConversationWorld V) : Prop :=
  ∃ m, w.stored x = some m ∧ m.status.isFinal = true

/-- Where a response cannot end its message it is neither interrupted nor fails: before its `try`
    block, and at an update in the handlers of its exceptions while the message has not ended. -/
def ConversationOp.Lands {cfg : ConversationConfig V} (w : ConversationWorld V) :
    (o : ConversationOp V) → Act cfg.sem.Ans Exn o → Prop
  | .begin, a => Passes a
  | .updateMessage .streaming _, a => Passes a
  | .nextSequence _ type _, a => type = "assistant.message.started" → Passes a
  | .publish e, a => e.type = "assistant.message.started" → Passes a
  | .audit action .., a => action = "assistant.message.started" → Passes a
  | .updateMessage .cancelled m, a => (∃ e, a = .before e) →
    ∃ y, w.store.message m.conversationId m.id = some y ∧ y.status.isFinal = true
  | .updateMessage .failed m, a => (∃ e, a = .before e) →
    ∃ y, w.store.message m.conversationId m.id = some y ∧ y.status.isFinal = true
  | _, _ => True

/-- The responses land. -/
def ConversationConfig.lands (cfg : ConversationConfig V) :
    Allow cfg.sem.Ans Exn (ConversationWorld V) :=
  fun _ w _ a => ConversationOp.Lands w _ a

/-- Besides its own task only a recovery changes the message of a response, and fails it. -/
def finalContract : Contract (ConversationWorld V) :=
  turnContract (fun t w w' => ∀ x, w.turns.get t = some x → w'.stored x = w.stored x ∨ Final x w')
    (fun _ _ _ _ => .inl rfl) fun _ _ _ _ hg h h' x hx => by
      rcases h' x (hg.turns _ x hx) with he | hf
      · rcases h x hx with he' | ⟨m, hm, hf⟩
        · exact .inl (he.trans he')
        · exact .inr ⟨m, he.trans hm, hf⟩
      · exact .inr hf

theorem final_tolerant : Tolerant (finalContract (V := V)) :=
  turnContract_tolerant fun _ _ _ h x hx => .inl (h _ x hx).1

section
variable {cfg : ConversationConfig V} {t : Nat} {x : Turn V} {w : ConversationWorld V}
  {G : ConversationWorld V → Prop}

theorem final_stable : (finalContract (V := V)).Stable t fun w => Responding t x w ∧ Final x w := by
  rintro w w' h ⟨hx, m, hm, hf⟩
  refine ⟨hx.grown h.1, ?_⟩
  rcases h.2 x hx.2 with he | hf'
  · exact ⟨m, he.trans hm, hf⟩
  · exact hf'

theorem responding_stable : (finalContract (V := V)).Stable t (Responding t x) :=
  fun _ _ h hx => hx.grown h.1

/-- The other awaits of the response leave its message alone. -/
theorem final_replying (hG : ∀ w, G w → Responding t x w) :
    Replying (Keeps cfg.sem cfg.lands finalContract t G) x where
  quiet o ho := final_tolerant.keeps_quiet ho
  publish e he := by
    intro b w a r w' hv hg ha hact
    obtain ⟨hw', hgr, hother, hs, -⟩ := turn_publish hv (hG w hg) he hact
    refine ⟨hw', fun t' => ⟨hgr t', fun z hz => .inl ?_⟩⟩
    by_cases ht : t' = t
    · subst ht
      rw [(hG w hg).2] at hz
      cases hz
      exact hs
    · exact (hother t' ht z hz).1

/-- What an update of its message has done, after the await `a` in `w₁`. -/
def Updated (x : Turn V) (m : ConversationMessage V) {o : ConversationOp V} (w₁ : ConversationWorld V)
    (a : Act cfg.sem.Ans Exn o) (r : Except Exn o.Resp) (w' : ConversationWorld V) : Prop :=
  w'.stored x = w₁.stored x ∧ (∃ e, r = .error e) ∧ (∃ e, a = .before e) ∨
    w'.stored x = some m ∧ ((∃ v, r = .ok v) ∨ ∃ e c, a = .after e c)

theorem final_update {site : UpdateSite} {m : ConversationMessage V}
    (hm : m.Renews x.assistantMessage) (hx : Responding t x w) :
    Safe cfg.sem cfg.lands finalContract t (fun r w' => Responding t x w' ∧
      ∃ w₁ a, cfg.lands t w₁ (.updateMessage site m) a ∧ Updated x m w₁ a r w')
      (attend (.updateMessage site m)) w := by
  refine Safe.call fun w₁ hr hv a ha r w₂ hact => ?_
  have hx₁ := hx.grown hr.1
  obtain ⟨hw₂, hg, hother, -, hcases⟩ := turn_update hv hx₁ hm hact
  refine ⟨hw₂, fun t' ht => ⟨hg t', fun z hz => .inl (hother t' ht z hz).1⟩, hx₁.grown (hg t),
    w₁, a, ha, ?_⟩
  exact hcases.imp_right fun h => ⟨h.1, h.2.imp_left fun hr => ⟨(), hr⟩⟩

/-- A step of the response that has to pass. -/
theorem final_pass {o : ConversationOp V} (ho : o.isQuiet ∨ ∃ e, o = .publish e ∧
      e.messageId = some x.assistantMessage.id)
    (hp : ∀ (w : ConversationWorld V) (a : Act cfg.sem.Ans Exn o), cfg.lands t w o a → Passes a)
    (hok : ∀ (w : ConversationWorld V) c r w', w.effect cfg t o c = some (r, w') → ∃ v, r = .ok v)
    (hx : Responding t x w) :
    Safe cfg.sem cfg.lands finalContract t (fun r w' => (∃ v, r = .ok v) ∧ Responding t x w')
      (attend o) w := by
  have hkeep : Keeps cfg.sem cfg.lands finalContract t (Responding t x) o := by
    rcases ho with ho | ⟨e, rfl, he⟩
    · exact final_tolerant.keeps_quiet ho
    · exact (final_replying fun _ h => h).publish e he
  refine Safe.call fun w₁ hr hv a ha r w₂ hact => ?_
  have hx₁ := hx.grown hr.1
  obtain ⟨hv₂, hr₂⟩ := hkeep false w₁ a r w₂ hv hx₁ ha hact
  obtain ⟨c, hc⟩ := (hp w₁ a ha).act hact
  exact ⟨hv₂, fun t' _ => hr₂ t', hok w₁ c r w₂ hc, hx₁.grown (hr₂ t).1⟩

theorem started_safe (hx : Responding t x w) :
    Safe cfg.sem cfg.lands finalContract t (fun r w' => r = .ok () ∧ Responding t x w')
      (emitFor cfg x "assistant.message.started" []) w := by
  refine Safe.bind ((final_pass (.inl rfl) (by exact fun _ _ h => h rfl)
    (fun w c r w' h => by cases h; exact ⟨c, rfl⟩) hx).mono fun r w₁ h₁ => ?_)
  obtain ⟨⟨sequence, rfl⟩, hx₁⟩ := h₁
  refine Safe.bind ((final_pass (.inr ⟨_, rfl, rfl⟩) (by exact fun _ _ h => h rfl)
    (fun w c r w' h => by cases h; exact ⟨(), rfl⟩) hx₁).mono fun r w₂ h₂ => ?_)
  obtain ⟨⟨_, rfl⟩, hx₂⟩ := h₂
  dsimp only
  split
  · exact (final_pass (.inl rfl) (by exact fun _ _ h => h rfl)
      (fun w c r w' h => by cases h; exact ⟨(), rfl⟩) hx₂).mono fun r w₃ h₃ =>
        ⟨h₃.1.choose_spec, h₃.2⟩
  · exact ⟨rfl, hx₂⟩

/-- The `try` block ends the message, or raises. -/
theorem reply_final (hx : Responding t x w) :
    Safe cfg.sem cfg.lands finalContract t
      (fun r w' => Responding t x w' ∧ (r = .ok () → Final x w')) (reply cfg x) w := by
  have uses : ∀ {α : Type} {p : Talk V α} {w : ConversationWorld V}, Responding t x w →
      p.Uses (Keeps cfg.sem cfg.lands finalContract t (Responding t x)) →
      Safe cfg.sem cfg.lands finalContract t (fun _ w' => Responding t x w') p w :=
    fun hx hp => (Safe.of_uses responding_stable hp hx).mono fun _ _ h => h.1
  have replying : Replying (Keeps cfg.sem cfg.lands finalContract t (Responding t x)) x :=
    final_replying fun _ h => h
  refine Safe.bind ((uses hx (Prog.Uses.call (replying.quiet _ rfl))).mono fun r w₁ hx₁ => ?_)
  rcases r with e | history
  · exact ⟨hx₁, nofun⟩
  refine Safe.bind (Safe.lift ?_)
  split
  rotate_left
  · exact ⟨hx₁, nofun⟩
  rename_i handler _
  refine Safe.bind ((uses hx₁ (handle_uses replying handler)).mono fun r w₂ hx₂ => ?_)
  rcases r with e | result
  · exact ⟨hx₂, nofun⟩
  refine Safe.bind ((uses hx₂ (suggestFollowups_uses replying)).mono fun r w₃ hx₃ => ?_)
  rcases r with e | followups
  · exact ⟨hx₃, nofun⟩
  refine Safe.bind ((final_update completed_renews hx₃).mono fun r w₄ h₄ => ?_)
  obtain ⟨hx₄, w', a, -, hcases⟩ := h₄
  rcases r with e | _
  · exact ⟨hx₄, nofun⟩
  have hfinal : Final x w₄ := by
    rcases hcases with ⟨-, ⟨e, he⟩, -⟩ | ⟨hs, -⟩
    · cases he
    · refine ⟨_, hs, ?_⟩
      dsimp only [completed]
      split <;> rfl
  -- the event comes after the update
  have emitted : ∀ type data, Safe cfg.sem cfg.lands finalContract t
      (fun r w' => Responding t x w' ∧ (r = .ok () → Final x w')) (emitFor cfg x type data) w₄ :=
    fun type data => (Safe.of_uses final_stable (emitFor_uses (final_replying fun _ h => h.1))
      ⟨hx₄, hfinal⟩).mono fun _ _ h => ⟨h.1.1, fun _ => h.1.2⟩
  dsimp only
  split
  · exact emitted _ _
  · exact emitted _ _

/-- The handlers of its exceptions end the message. -/
theorem recoverReply_final {e : Exn} (hx : Responding t x w) :
    Safe cfg.sem cfg.lands finalContract t (fun _ w' => Final x w') (recoverReply cfg x e) w := by
  have update : ∀ {site : UpdateSite} {m : ConversationMessage V} {w : ConversationWorld V},
      site = .cancelled ∨ site = .failed → m.Renews x.assistantMessage → m.status.isFinal = true →
      Responding t x w → Safe cfg.sem cfg.lands finalContract t (fun _ w' => Responding t x w' ∧ Final x w')
        (attend (.updateMessage site m)) w := by
    intro site m w hsite hm hf hx
    refine (final_update hm hx).mono fun r w' h => ⟨h.1, ?_⟩
    obtain ⟨-, w₁, a, ha, ⟨hs, -, hb⟩ | ⟨hs, -⟩⟩ := h
    · have hland : ∃ y, w₁.store.message m.conversationId m.id = some y ∧
          y.status.isFinal = true := by
        rcases hsite with rfl | rfl
        · exact ha hb
        · exact ha hb
      obtain ⟨y, hy, hyf⟩ := hland
      rw [hm.conversationId, hm.id] at hy
      exact ⟨y, hs.trans hy, hyf⟩
    · exact ⟨m, hs, hf⟩
  have emitted : ∀ {type data} {w : ConversationWorld V}, Responding t x w ∧ Final x w →
      Safe cfg.sem cfg.lands finalContract t (fun _ w' => Final x w') (emitFor cfg x type data) w :=
    fun hw => (Safe.of_uses final_stable (emitFor_uses (final_replying fun _ h => h.1)) hw).mono
      fun _ _ h => h.1.2
  unfold recoverReply
  split
  · refine Safe.bind ((update (.inr rfl) (by exact ⟨rfl, rfl, rfl, rfl⟩) (by rfl) hx).mono fun r w₁ h₁ => ?_)
    rcases r with e | _
    · exact h₁.2
    · exact emitted h₁
  · refine Safe.bind ((update (.inl rfl) (by exact ⟨rfl, rfl, rfl, rfl⟩) (by rfl) hx).mono fun r w₁ h₁ => ?_)
    rcases r with e | _
    · exact h₁.2
    · refine Safe.bind ((emitted h₁).mono fun r w₂ h₂ => ?_)
      rcases r with e | _
      · exact h₂
      · exact h₂

theorem respond_final (hx : Responding t x w) :
    Safe cfg.sem cfg.lands finalContract t (fun _ w' => Final x w') (respond cfg x) w := by
  refine Safe.bind ((final_pass (.inl rfl) (by exact fun _ _ h => h)
    (fun w c r w' h => by cases h; exact ⟨(), rfl⟩) hx).mono fun r w₁ h₁ => ?_)
  obtain ⟨⟨_, rfl⟩, hx₁⟩ := h₁
  refine Safe.bind ((final_update (by exact ⟨rfl, rfl, rfl, rfl⟩) hx₁).mono
    fun r w₂ h₂ => ?_)
  obtain ⟨hx₂, w', a, ⟨c, rfl⟩, ⟨-, -, e, he⟩ | ⟨-, ⟨_, rfl⟩ | ⟨e, c, he⟩⟩⟩ := h₂
  · cases he
  · refine Safe.bind ((started_safe hx₂).mono fun r w₃ h₃ => ?_)
    obtain ⟨rfl, hx₃⟩ := h₃
    refine Safe.handle ((reply_final hx₃).mono fun r w₄ h₄ => ?_)
    rcases r with e | _
    · exact recoverReply_final h₄.1
    · exact h₄.2 rfl
  · cases he

end

section
variable (cfg : ConversationConfig V) (calls : Nat → ConversationCall V)

/-- How a response ends. -/
def EndsFinal (t : Nat) (_ : Except Exn (ConversationReply V)) (w : ConversationWorld V) : Prop :=
  t ∈ w.started ∧ ∀ x, w.turns.get t = some x → Final x w

/-- A recovery fails the messages that it has listed. -/
theorem final_recovered {t : Nat} {m : ConversationMessage V} :
    Keeps cfg.sem cfg.lands finalContract t (Listed m)
      (.updateMessage .recovered (interrupted cfg m)) := by
  intro b w a r w' hv hm ha hact
  rcases ConversationConfig.act_updateMessage hact with ⟨hq, -⟩ | ⟨store, hs, hst, -⟩
  · exact final_tolerant.quiet hv hq
  · have hlisted : Listed (interrupted cfg m) w := hm
    obtain ⟨hw, hg⟩ := update_sound hv hlisted (by intro h; cases h) hs
    obtain ⟨hother, -, hself⟩ := ConversationStore.updateMessage_cases hs
    have h := final_tolerant.then_quiet (N := fun _ => True) (w := w)
      ⟨hw, fun t' _ => ⟨hg t', fun z hz => ?_⟩⟩ hst.quiet
    · exact h.imp_right fun h t' => h t' trivial
    · by_cases he : (z.assistantMessage.conversationId, z.assistantMessage.id) =
          (m.conversationId, m.id)
      · obtain ⟨hc, hi⟩ := Prod.mk.inj he
        simp only [Final, stored, hc, hi]
        rcases hself with hs | ⟨hs, -⟩
        · exact .inl hs
        · exact .inr ⟨_, hs, rfl⟩
      · exact .inl (hother _ _ he)

theorem final_publish {t : Nat} {e : ConversationEvent V} {G : ConversationWorld V → Prop} :
    Keeps cfg.sem cfg.lands finalContract t G (.publish e) := by
  intro b w a r w' hv hg ha hact
  rcases ConversationConfig.act_publish hact with ⟨hq, -⟩ | hq
  · exact final_tolerant.quiet hv hq
  · have hsub := Finset.Subset.refl w.started
    have hpublished : finalContract.valid { w with events := e :: w.events } ∧
        ∀ t', True → finalContract.rely t' w { w with events := e :: w.events } :=
      ⟨Sound.same hv rfl rfl rfl hsub,
        fun t' _ => ⟨Grown.same rfl rfl rfl hsub, fun _ _ => .inl rfl⟩⟩
    have h := final_tolerant.then_quiet (N := fun _ => True) hpublished hq
    exact h.imp_right fun h t' => h t' trivial

theorem replies_respect :
    Sys.Respects (conversationSys cfg cfg.lands calls) finalContract EndsFinal := by
  refine final_tolerant.respects (fun t w hv hw => ?_) fun t x w hv ht hx _ => ?_
  · refine (final_tolerant.task_safe (fun m => final_recovered cfg) (fun _ _ _ _ => final_publish cfg)
      (calls t) hw).mono fun r w' h => ⟨h.1, fun x hx => absurd (h.2.symm.trans hx) (by simp)⟩
  · have hfinal : Safe cfg.sem cfg.lands finalContract t (fun _ w' => Final x w')
        (Talk.drop (respond cfg x)) w := by
      refine Safe.bind ((respond_final ⟨ht, hx⟩).mono fun r w' h => ?_)
      cases r with
      | ok _ => exact h
      | error e => exact h
    refine (hfinal.and_uses responding_stable (Prog.Uses.all (fun o b w a r w' hg h => ?_) _)
      ⟨ht, hx⟩).mono fun r w' h => ⟨h.2.1, fun y hy => ?_⟩
    · obtain ⟨hs, ht⟩ := ConversationConfig.act_turns h hg.1
      exact ⟨hs, ht.trans hg.2⟩
    · cases h.2.2.symm.trans hy
      exact h.1

theorem endsFinal_lasting :
    Sys.Lasting (conversationSys cfg cfg.lands calls) finalContract EndsFinal where
  rely {t r w w'} hr h := by
    refine ⟨hr.1.started h.1, fun x hx => ?_⟩
    rcases hw : w.turns.get t with _ | y
    · exact absurd ((hr.1.call h.1 hw).symm.trans hx) (by simp)
    · cases (hr.1.turns t y hw).symm.trans hx
      obtain ⟨m, hm, hf⟩ := h.2 x hw
      rcases hr.2 x hw with he | hf'
      · exact ⟨m, he.trans hm, hf⟩
      · exact hf'
  fin _ h := h

/-- **A response that has ended has ended its message**: it is stored COMPLETED, FAILED or
    CANCELLED, whatever the other tasks do and whatever fails, if it lands. -/
theorem replies_final {w₀ : ConversationWorld V} (h₀ : w₀.Fresh)
    {l : List (Event _ cfg.sem.Ans Exn (ConversationReply V))} {P : Pool _ Exn _ _}
    (h : (conversationSys cfg cfg.lands calls).Trace (quietPool w₀) l P)
    {t : Nat} {x : Turn V} {r : Except Exn (ConversationReply V)}
    (hx : P.world.turns.get t = some x) (he : .ended t r ∈ l) :
    ∃ m, P.world.stored x = some m ∧
      (m.status = .completed ∨ m.status = .failed ∨ m.status = .cancelled) := by
  have hv : finalContract.valid (quietPool w₀).world := h₀.sound
  obtain ⟨m, hm, hf⟩ := (h.settled (replies_respect cfg calls) (endsFinal_lasting cfg calls)
    conversationSys_once (fun _ => rfl) hv t r he).2 x hx
  refine ⟨m, hm, ?_⟩
  cases hs : m.status with
  | accepted => simp [hs, MessageStatus.isFinal] at hf
  | streaming => simp [hs, MessageStatus.isFinal] at hf
  | completed => exact .inl rfl
  | failed => exact .inr (.inl rfl)
  | cancelled => exact .inr (.inr rfl)

end

namespace TalkSample

/-- Call 0 submits a message, the others cancel its response. -/
def cancelling : Nat → ConversationCall String
  | 0 => .submit hello
  | _ => .cancel "c" "tenant"

theorem passes_lands {cfg : ConversationConfig String} {w : ConversationWorld String}
    {o : ConversationOp String} {a : Act cfg.sem.Ans Exn o} (h : Passes a) : o.Lands w a := by
  have before : ∀ {Z : Prop}, (∃ e, a = .before e) → Z := by
    rintro Z ⟨e, rfl⟩
    obtain ⟨c, hc⟩ := h
    cases hc
  cases o with
  | begin => exact h
  | updateMessage site m =>
    cases site with
    | streaming => exact h
    | cancelled => exact before
    | failed => exact before
    | result => trivial
    | recovered => trivial
  | nextSequence | publish | audit => exact fun _ => h
  | _ => trivial

/-- Nothing fails and nothing is interrupted. -/
def landing : Player (conversationSys talking talking.lands cancelling) :=
  conversationPlayer talking cancelling (fun _ _ _ a => passing a)
    fun _ _ _ _ h => passes_lands (passes_of_passing h)

/-- Everything can happen. -/
def stopping : Player (conversationSys talking (fun _ _ _ _ => True) cancelling) :=
  conversationPlayer talking cancelling (fun _ _ _ _ => true) fun _ _ _ _ _ => trivial

/-- A cancellation strikes. -/
def struck {cfg : ConversationConfig String} (o : ConversationOp String) :
    Act cfg.sem.Ans Exn o := .before .cancelled

end TalkSample

open TalkSample

/-- A response that answers. -/
theorem replies_final_sample : ∃ l P r x,
    (conversationSys talking talking.lands cancelling).Trace (quietPool talks) l P ∧
      .ended 1 r ∈ l ∧ P.world.turns.get 1 = some x ∧ ∃ m, P.world.stored x = some m ∧
        (m.status = .completed ∨ m.status = .failed ∨ m.status = .cancelled) := by
  obtain ⟨l, P, hP, h⟩ := landing.exists_trace (submits 0 1 "u" "a" ++ .enter 1 :: calm 1 9)
    (quietPool talks) (fun x => (lastEnds 1 Except.isOk x.1, (x.2.world.turns.get 1).isSome))
    (a := (true, true)) (by decide +kernel)
  obtain ⟨hend, hx⟩ := Prod.mk.inj h
  obtain ⟨r, he, -⟩ := exists_of_lastEnds hend
  obtain ⟨x, hx⟩ := Option.isSome_iff_exists.1 hx
  exact ⟨l, P, r, x, hP, he, hx, replies_final talking cancelling talks_fresh hP hx he⟩

/-- The response is cancelled before its first step: its message stays ACCEPTED. -/
theorem reply_stranded : ¬ ∀ (cfg : ConversationConfig String)
    (calls : Nat → ConversationCall String) (w₀ : ConversationWorld String), w₀.Fresh →
    ∀ l P, (conversationSys cfg (fun _ _ _ _ => True) calls).Trace (quietPool w₀) l P →
      ∀ t x r, P.world.turns.get t = some x → .ended t r ∈ l →
        ∃ m, P.world.stored x = some m ∧
          (m.status = .completed ∨ m.status = .failed ∨ m.status = .cancelled) := by
  intro hclaim
  obtain ⟨l, P, hP, h⟩ := stopping.exists_trace
    (submits 0 1 "u" "a" ++ [.enter 2] ++ calm 2 2 ++ [.enter 1, .run 1 struck])
    (quietPool talks) (fun x => (lastEnds 1 (fun _ => true) x.1,
      (x.2.world.turns.get 1).map fun y => (x.2.world.stored y).map (·.status)))
    (a := (true, some (some .accepted))) (by decide +kernel)
  obtain ⟨hend, hx⟩ := Prod.mk.inj h
  obtain ⟨r, he, -⟩ := exists_of_lastEnds hend
  obtain ⟨x, hx, hs⟩ := Option.map_eq_some_iff.1 hx
  obtain ⟨m, hm, hstatus⟩ := Option.map_eq_some_iff.1 hs
  obtain ⟨m', hm', hf⟩ := hclaim talking cancelling talks talks_fresh l P hP 1 x r hx he
  cases hm.symm.trans hm'
  rcases hf with hf | hf | hf <;> exact absurd (hstatus.symm.trans hf) nofun

end TracciaRuntime
