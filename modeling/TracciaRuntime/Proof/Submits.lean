/-
  Traccia Runtime formalization — a submit is atomic as long as nothing goes wrong after its
  first message.

  * `Submitting t l`: the messages `l` are all that call `t` has stored, and no response has one of
    them yet;
  * `Settles`: the awaits of a submit after its first append neither fail nor are interrupted;
  * `submit_safe`: what a submit leaves behind, under every tolerant contract;
  * `submit_atomic`: the whole system.
-/
import TracciaRuntime.Proof.Turns

namespace TracciaRuntime

open Py Async ConversationWorld ConversationService

variable {V : Type}

/-- An await of a submit that has stored a message neither fails nor is interrupted; the append
    of its first message is not interrupted after it took effect. -/
def ConversationOp.Settles {cfg : ConversationConfig V} (w : ConversationWorld V) :
    (o : ConversationOp V) → Act cfg.sem.Ans Exn o → Prop
  | .appendMessage m, a => if m.role = .user then ∀ e c, a ≠ .after e c else Passes a
  | .save c expectedVersion, a => Passes a ∧ ∃ x, w.store.save c expectedVersion = .ok x
  | .nextSequence .., a => Passes a
  | .publish _, a => Passes a
  | .audit .., a => Passes a
  | _, _ => True

/-! ## What a call has stored -/

/-- The messages `l` are what call `t` has stored, and no response has one of them. -/
structure Submitting (t : Nat) (l : List (ConversationMessage V)) (w : ConversationWorld V) : Prop where
  started : t ∈ w.started
  call : w.turns.get t = none
  stored : ∀ m ∈ l, w.issued.get m.id = some (some t) ∧
    ∃ x, w.store.message m.conversationId m.id = some x ∧ x.tenantId = m.tenantId ∧
      x.role = m.role ∧ (m.role = .user → x = m) ∧ (x.status = .completed → m.status = .completed)
  untold : ∀ id, w.issued.get id = some (some t) → w.Untold id
  clean : ∀ id, w.issued.get id = some (some t) → (∀ m ∈ l, m.id ≠ id) →
    ∀ c, w.store.message c id = none

/-- Moreover it has an identifier for one more. -/
structure Drafting (t : Nat) (l : List (ConversationMessage V)) (id : String)
    (w : ConversationWorld V) : Prop extends Submitting t l w where
  issued : w.issued.get id = some (some t)
  fresh : ∀ m ∈ l, m.id ≠ id

section
variable {t : Nat} {l : List (ConversationMessage V)} {w w' : ConversationWorld V} {id : String}

theorem Submitting.grown (h : Submitting t l w) (hg : Grown t w w') : Submitting t l w' where
  started := hg.started h.started
  call := hg.call h.started h.call
  stored m hm := by
    obtain ⟨hid, x, hx, ht, hr, hu, hc⟩ := h.stored m hm
    obtain ⟨y, hy, ht', hr', hu', hc'⟩ := hg.message _ _ _ hx
    refine ⟨hg.issued _ _ hid, y, hy, ht'.trans ht, hr'.trans hr, fun hm => ?_, fun hy => ?_⟩
    · rw [hu' (hr.trans hm), hu hm]
    · exact hc (hc' (hg.untold _ hid (h.untold _ hid)) hy)
  untold id hid := hg.untold id (hg.mine id hid) (h.untold id (hg.mine id hid))
  clean id hid hne := hg.absent id (hg.mine id hid) (h.clean id (hg.mine id hid) hne)

theorem Drafting.grown (h : Drafting t l id w) (hg : Grown t w w') : Drafting t l id w' :=
  ⟨h.toSubmitting.grown hg, hg.issued _ _ h.issued, h.fresh⟩

/-- A call that has just entered has stored nothing. -/
theorem ConversationWorld.Entered.submitting (h : w.Entered t) : Submitting t [] w :=
  ⟨h.started, h.call, nofun, fun id hid => absurd hid (h.unissued id),
    fun id hid => absurd hid (h.unissued id)⟩

theorem Submitting.issue (h : Submitting t l w) (hs : Sound w) (hn : w.issued.get id = none) :
    Drafting t l id { w with issued := w.issued.set id (some t) } := by
  have hold : ∀ i, (w.issued.set id (some t)).get i = some (some t) →
      i = id ∨ w.issued.get i = some (some t) := by
    intro i hi
    rw [Dict.get_set] at hi
    split at hi
    · rename_i he
      exact .inl he
    · exact .inr hi
  have hne : ∀ m ∈ l, m.id ≠ id := by
    rintro m hm rfl
    have := (h.stored m hm).1
    rw [hn] at this
    cases this
  have hnone : ∀ c, w.store.message c id = none := by
    intro c
    rcases hm : w.store.message c id with _ | m
    · rfl
    · have := hs.issued c id m hm
      rw [hn] at this
      cases this
  refine ⟨⟨h.started, h.call, fun m hm => ⟨?_, (h.stored m hm).2⟩, fun i hi => ?_,
    fun i hi hl => ?_⟩, Dict.get_set_self .., hne⟩
  · exact (Dict.get_set_ne (hne m hm)).trans (h.stored m hm).1
  · rcases hold i hi with rfl | hi
    · -- the message of a response has an identifier that is in use
      rintro d x hx rfl
      obtain ⟨⟨y, hy, -⟩, -⟩ := hs.turn d x hx
      rw [hnone] at hy
      cases hy
    · exact h.untold i hi
  · rcases hold i hi with rfl | hi
    · exact hnone
    · exact h.clean i hi hl

theorem Drafting.append {m : ConversationMessage V} {store : ConversationStore V}
    (h : Drafting t l m.id w) (ha : w.store.appendMessage m = .ok store) :
    Submitting t (l ++ [m]) { w with store } := by
  obtain ⟨-, hself, hother, -⟩ := ConversationStore.appendMessage_cases ha
  refine ⟨h.started, h.call, fun x hx => ?_, h.untold, fun id hid hne c => ?_⟩
  · rcases List.mem_append.1 hx with hx | hx
    · obtain ⟨hid, y, hy, hr⟩ := h.stored x hx
      refine ⟨hid, y, (hother _ _ fun he => ?_).trans hy, hr⟩
      exact h.fresh x hx (Prod.mk.inj he).2
    · rw [List.mem_singleton.1 hx]
      exact ⟨h.issued, m, hself, rfl, rfl, fun _ => rfl, fun h => h⟩
  · refine (hother c id fun he => ?_).trans (h.clean id hid (fun x hx => ?_) c)
    · exact hne m (by simp) (Prod.mk.inj he).2.symm
    · exact hne x (List.mem_append_left _ hx)

end

/-! ## One await -/

section
variable {cfg : ConversationConfig V} {A : Allow cfg.sem.Ans Exn (ConversationWorld V)}
  {R : Contract (ConversationWorld V)} {t : Nat} {w : ConversationWorld V}
  {G : ConversationWorld V → Prop} {l : List (ConversationMessage V)} {id : String}

theorem Tolerant.stable_submitting (hR : Tolerant R) : R.Stable t (Submitting t l) :=
  fun _ _ h hw => hw.grown (hR.grown h)

theorem Tolerant.stable_drafting (hR : Tolerant R) : R.Stable t (Drafting t l id) :=
  fun _ _ h hw => hw.grown (hR.grown h)

theorem Tolerant.call_safe (hR : Tolerant R) {o : ConversationOp V} (ho : o.isQuiet)
    (hG : R.Stable t G) (hw : G w) : Safe cfg.sem A R t (fun _ w' => G w') (attend o) w :=
  (Safe.of_uses hG (Prog.Uses.call (hR.keeps_quiet ho)) hw).mono fun _ _ h => h.1

/-- A step inside the process returns. -/
theorem Tolerant.local_safe (hR : Tolerant R) {o : ConversationOp V} (ho : o.isQuiet)
    (hl : o.isLocal)
    (hok : ∀ (w : ConversationWorld V) c r w', w.effect cfg t o c = some (r, w') → ∃ v, r = .ok v)
    (hG : R.Stable t G) (hw : G w) :
    Safe cfg.sem A R t (fun r w' => (∃ v, r = .ok v) ∧ G w') (attend o) w := by
  refine Safe.call fun w₁ hr hv a ha r w₂ hact => ?_
  obtain ⟨hv₂, hr₂⟩ := hR.quiet hv (ConversationConfig.act_quiet ho hact)
  refine ⟨hv₂, fun t' _ => hr₂ t', ?_, hG _ _ (hr₂ t) (hG _ _ hr hw)⟩
  obtain ⟨C, ⟨c, hc⟩ | ⟨e, -, h, -⟩⟩ := ConversationConfig.act_cases hact
  · exact hok _ c r w₂ hc
  · rw [hl] at h
    cases h

theorem Tolerant.utcNow_safe (hR : Tolerant R) (hG : R.Stable t G) (hw : G w) :
    Safe cfg.sem A R t (fun r w' => (∃ now, r = .ok now) ∧ G w') (attend .utcNow) w := by
  refine hR.local_safe rfl rfl (fun w c r w' h => ?_) hG hw
  simp only [effect] at h
  split at h <;> cases h
  exact ⟨c, rfl⟩

theorem Tolerant.unlock_safe (hR : Tolerant R) (hG : R.Stable t G) (hw : G w) :
    Safe cfg.sem A R t (fun r w' => (∃ v, r = .ok v) ∧ G w') (attend .unlock) w :=
  hR.local_safe rfl rfl (fun w c r w' h => by cases h; exact ⟨(), rfl⟩) hG hw

/-- The awaits of task `t` settle. -/
def Settling (cfg : ConversationConfig V) (A : Allow cfg.sem.Ans Exn (ConversationWorld V))
    (t : Nat) : Prop :=
  ∀ w o a, A t w o a → w.turns.get t = none → o.Settles w a

theorem Tolerant.uuid_safe (hR : Tolerant R) (hw : Submitting t l w) :
    Safe cfg.sem A R t (fun r w' => ∃ id, r = .ok id ∧ Drafting t l id w') (attend .uuid) w := by
  refine Safe.call fun w₁ hr hv a ha r w₂ hact => ?_
  have hw₁ := hw.grown (hR.grown hr)
  obtain ⟨id, rfl, hn, hq⟩ := ConversationConfig.act_uuid hact
  have hi := hR.issue hv hn hw₁.started
  obtain ⟨hv₂, hr₂⟩ := hR.then_quiet (N := (· ≠ t)) hi hq
  exact ⟨hv₂, hr₂, id, rfl, (hw₁.issue (hR.sound hv) hn).grown (hq.grown t)⟩

theorem Tolerant.append_safe (hR : Tolerant R) {m : ConversationMessage V}
    (hw : Drafting t l m.id w) :
    Safe cfg.sem A R t (fun r w' => match r with
      | .ok _ => Submitting t (l ++ [m]) w'
      | .error _ => Settling cfg A t → m.role = .user ∧ Submitting t l w')
      (attend (.appendMessage m)) w := by
  refine Safe.call fun w₁ hr hv a ha r w₂ hact => ?_
  have hw₁ := hw.grown (hR.grown hr)
  rcases ConversationConfig.act_appendMessage hact with ⟨hq, e, rfl, hp⟩ | ⟨store, hs, hst, hres⟩
  · obtain ⟨hv₂, hr₂⟩ := hR.quiet hv hq
    refine ⟨hv₂, fun t' _ => hr₂ t', fun hset => ⟨?_, hw₁.toSubmitting.grown (hq.grown t)⟩⟩
    -- a new message can be appended
    by_contra hu
    have hpass : Passes a := by simpa [ConversationOp.Settles, hu] using hset _ _ _ ha hw₁.call
    obtain ⟨store, hs⟩ := ConversationStore.appendMessage_of_message
      (hw₁.clean _ hw₁.issued hw₁.fresh m.conversationId)
    have he := hp hpass
    rw [hs] at he
    cases he
  · obtain ⟨hv₂, hr₂⟩ := hR.then_quiet (N := (· ≠ t)) (hR.append hv hw₁.issued hs) hst.quiet
    refine ⟨hv₂, hr₂, ?_⟩
    rcases hres with rfl | ⟨e, c, rfl⟩
    · exact (hw₁.append hs).grown (hst.quiet.grown t)
    · cases r with
      | ok _ => exact (hw₁.append hs).grown (hst.quiet.grown t)
      | error _ =>
        intro hset
        have h := hset _ _ _ ha hw₁.call
        simp only [ConversationOp.Settles] at h
        split at h
        · exact absurd rfl (h e c)
        · obtain ⟨_, hc⟩ := h
          cases hc

/-- An await that settles returns. -/
theorem Tolerant.settled_safe (hR : Tolerant R) {o : ConversationOp V} (ho : o.isQuiet)
    (hw : Submitting t l w)
    (hset : ∀ (w : ConversationWorld V) (a : Act cfg.sem.Ans Exn o), o.Settles w a →
      Passes a ∧ ∀ c r w', w.effect cfg t o c = some (r, w') → ∃ v, r = .ok v) :
    Safe cfg.sem A R t (fun r w' => Submitting t l w' ∧ (Settling cfg A t → ∃ v, r = .ok v))
      (attend o) w := by
  refine Safe.call fun w₁ hr hv a ha r w₂ hact => ?_
  have hw₁ := hw.grown (hR.grown hr)
  have hq := ConversationConfig.act_quiet ho hact
  obtain ⟨hv₂, hr₂⟩ := hR.quiet hv hq
  refine ⟨hv₂, fun t' _ => hr₂ t', hw₁.grown (hq.grown t), fun hs => ?_⟩
  obtain ⟨hp, hok⟩ := hset w₁ a (hs _ _ _ ha hw₁.call)
  obtain ⟨c, hc⟩ := hp.act hact
  exact hok c r w₂ hc

theorem Tolerant.emit_settled_safe (hR : Tolerant R) {c : Conversation} {type : String}
    {data : Dict String V} (hw : Submitting t l w)
    (hid : ∀ w : ConversationWorld V, Submitting t l w → w.issued.get id = some (some t)) :
    Safe cfg.sem A R t (fun r w' => Submitting t l w' ∧ (Settling cfg A t → r = .ok ()))
      (emit cfg c type data (some id)) w := by
  refine Safe.bind ((hR.settled_safe (o := .nextSequence c.id type (some id)) rfl hw
    fun w a ha => ⟨ha, fun n r w' h => ?_⟩).mono fun r w₁ h₁ => ?_)
  · cases h
    exact ⟨n, rfl⟩
  obtain ⟨hw₁, hok₁⟩ := h₁
  rcases r with e | sequence
  · exact ⟨hw₁, fun hs => nomatch hok₁ hs⟩
  have publish : ∀ e : ConversationEvent V, e.messageId = some id →
      Safe cfg.sem A R t (fun r w' => Submitting t l w' ∧ (Settling cfg A t → ∃ v, r = .ok v))
        (attend (.publish e)) w₁ := by
    intro e he
    refine Safe.call fun w₂ hr hv a ha r w₃ hact => ?_
    have hw₂ := hw₁.grown (hR.grown hr)
    have hkeep := (hR.keeps_publish (fun w _ hw i hi => ?_) :
      Keeps cfg.sem A R t (Submitting t l) (.publish e)) false w₂ a r w₃ hv hw₂ ha hact
    · refine ⟨hkeep.1, fun t' _ => hkeep.2 t', hw₂.grown (hR.grown (hkeep.2 t)), fun hs => ?_⟩
      obtain ⟨x, hx⟩ := Passes.act (hs _ _ _ ha hw₂.call : Passes a) hact
      cases hx
      exact ⟨(), rfl⟩
    · rw [he] at hi
      cases hi
      exact hw.untold id (hid w hw)
  refine Safe.bind ((publish _ rfl).mono fun r w₂ h₂ => ?_)
  obtain ⟨hw₂, hok₂⟩ := h₂
  rcases r with e | _
  · exact ⟨hw₂, fun hs => nomatch hok₂ hs⟩
  dsimp only
  split
  · refine (hR.settled_safe (o := .audit _ _ _ _ _ _) rfl hw₂
      fun w a ha => ⟨ha, fun n r w' h => ?_⟩).mono fun r w₃ h₃ => ?_
    · cases h
      exact ⟨(), rfl⟩
    · refine ⟨h₃.1, fun hs => ?_⟩
      obtain ⟨_, hv⟩ := h₃.2 hs
      exact hv
  · exact ⟨hw₂, fun _ => rfl⟩

/-! ## `submit` -/

/-- Both messages are stored, and there is a task for the response. -/
def Accepted (u a : ConversationMessage V) (w : ConversationWorld V) : Prop :=
  w.store.message u.conversationId u.id = some u ∧
    (∃ m, w.store.message a.conversationId a.id = some m) ∧ ∃ d c, w.turns.get d = some ⟨c, u, a⟩

theorem Tolerant.createTask_safe (hR : Tolerant R) {c : Conversation}
    {u a : ConversationMessage V} (hw : Submitting t [u, a] w) (hu : u.role = .user)
    (ha : a.role = .assistant) (hs : a.status ≠ .completed) :
    Safe cfg.sem A R t (fun r w' => r = .ok () ∧ u.role = .user ∧ Accepted u a w')
      (attend (.createTask ⟨c, u, a⟩)) w := by
  refine Safe.call fun w₁ hr hv act hact r w₂ h => ?_
  have hw₁ := hw.grown (hR.grown hr)
  obtain ⟨rfl, d, hd, hn, hq⟩ := ConversationConfig.act_createTask h
  obtain ⟨-, x, hx, hxt, hxr, hxu, -⟩ := hw₁.stored u (by simp)
  obtain ⟨hid, y, hy, hyt, hyr, -, hyc⟩ := hw₁.stored a (by simp)
  have hlisted : Listed a w₁ := ⟨⟨y, hy, hyt, hyr.trans ha⟩, ha⟩
  have hnew : ∀ m, w₁.stored ⟨c, u, a⟩ = some m → m.status ≠ .completed := by
    intro m hm hmc
    cases hy.symm.trans hm
    exact hs (hyc hmc)
  have hc := hR.create (x := ⟨c, u, a⟩) hv hid (hw₁.untold _ hid) hlisted hnew hn hd
  obtain ⟨hv₂, hr₂⟩ := hR.then_quiet (N := (· ≠ t)) hc hq
  refine ⟨hv₂, hr₂, rfl, hu, ?_, ⟨y, (hq.message _ _).trans hy⟩, d, c, ?_⟩
  · rw [hq.message]
    exact hx.trans (congrArg some (hxu hu))
  · rw [hq.turns]
    exact Dict.get_set_self ..

theorem Accepted.grown {u a : ConversationMessage V} {w' : ConversationWorld V}
    (h : Accepted u a w) (hu : u.role = .user) (hg : Grown t w w') : Accepted u a w' := by
  obtain ⟨hm, ⟨y, hy⟩, d, c, hd⟩ := h
  obtain ⟨m', hm', -, -, he, -⟩ := hg.message _ _ _ hm
  obtain ⟨y', hy', -⟩ := hg.message _ _ _ hy
  rw [he hu] at hm'
  exact ⟨hm', ⟨y', hy'⟩, d, c, hg.turns d _ hd⟩

/-- How the locked part of a submit ends, if it settles. -/
def Closed (t : Nat) (r : Except Exn (ConversationMessage V × ConversationMessage V))
    (w : ConversationWorld V) : Prop :=
  match r with
  | .ok (u, a) => u.role = .user ∧ Accepted u a w
  | .error _ => Submitting t [] w

theorem Tolerant.retitle_safe (hR : Tolerant R) {c : Conversation} {text : String}
    (hw : Submitting t l w) :
    Safe cfg.sem A R t (fun r w' => Submitting t l w' ∧ (Settling cfg A t → ∃ v, r = .ok v))
      (retitle c text) w := by
  unfold retitle
  split
  · refine hR.settled_safe rfl hw fun w a ha => ⟨ha.1, fun n r w' h => ?_⟩
    obtain ⟨-, x, hx⟩ := ha
    simp only [effect, hx, Option.some.injEq] at h
    cases h
    exact ⟨x.1, rfl⟩
  · exact ⟨hw, fun _ => ⟨c, rfl⟩⟩

theorem Tolerant.accept_safe (hR : Tolerant R) {x : Submission V} {c : Conversation}
    (hw : Submitting t [] w) :
    Safe cfg.sem A R t (fun r w' => Settling cfg A t → Closed t r w') (accept cfg x c) w := by
  refine Safe.bind ((hR.call_safe rfl hR.stable_submitting hw).mono fun r w₁ hw₁ => ?_)
  rcases r with e | active
  · exact fun _ => hw₁
  refine Safe.bind (Safe.raiseIf (fun _ _ => hw₁) fun _ => ?_)
  refine Safe.bind ((hR.uuid_safe hw₁).mono fun r w₂ h₂ => ?_)
  obtain ⟨userId, rfl, hw₂⟩ := h₂
  refine Safe.bind ((hR.utcNow_safe hR.stable_drafting hw₂).mono fun r w₃ h₃ => ?_)
  obtain ⟨⟨userAt, rfl⟩, hw₃⟩ := h₃
  refine Safe.bind ((hR.append_safe hw₃).mono fun r w₄ h₄ => ?_)
  rcases r with e | _
  · exact fun hs => (h₄ hs).2
  -- the message of the user is stored: from here on the submit has to go through
  refine Safe.bind ((hR.uuid_safe h₄).mono fun r w₅ h₅ => ?_)
  obtain ⟨id, rfl, hw₅⟩ := h₅
  refine Safe.bind ((hR.utcNow_safe hR.stable_drafting hw₅).mono fun r w₆ h₆ => ?_)
  obtain ⟨⟨createdAt, rfl⟩, hw₆⟩ := h₆
  refine Safe.bind ((hR.append_safe hw₆).mono fun r w₇ h₇ => ?_)
  rcases r with e | _
  · exact fun hs => nomatch (h₇ hs).1
  refine Safe.bind ((hR.retitle_safe h₇).mono fun r w₈ h₈ => ?_)
  obtain ⟨hw₈, hok₈⟩ := h₈
  rcases r with e | c'
  · exact fun hs => nomatch hok₈ hs
  refine Safe.bind ((hR.emit_settled_safe hw₈ fun w hw => (hw.stored _ List.mem_cons_self).1).mono
    fun r w₉ h₉ => ?_)
  obtain ⟨hw₉, hok₉⟩ := h₉
  rcases r with e | _
  · exact fun hs => nomatch hok₉ hs
  refine Safe.bind ((hR.createTask_safe hw₉ rfl rfl nofun).mono fun r w₁₀ h₁₀ => ?_)
  obtain ⟨rfl, hw₁₀⟩ := h₁₀
  exact fun _ => hw₁₀

theorem Closed.grown {r : Except Exn (ConversationMessage V × ConversationMessage V)}
    {w' : ConversationWorld V} (h : Closed t r w) (hg : Grown t w w') : Closed t r w' := by
  rcases r with e | ⟨u, a⟩
  · exact Submitting.grown h hg
  · exact ⟨h.1, h.2.grown h.1 hg⟩

theorem Tolerant.submit_safe (hR : Tolerant R) {x : Submission V} (hw : Submitting t [] w) :
    Safe cfg.sem A R t (fun r w' => Settling cfg A t → Closed t r w') (submit cfg x) w := by
  refine Safe.bind ((hR.call_safe rfl hR.stable_submitting hw).mono fun r w₁ hw₁ => ?_)
  rcases r with e | accepting
  · exact fun _ => hw₁
  refine Safe.bind (Safe.raiseIf (fun _ _ => hw₁) fun _ => ?_)
  refine Safe.bind (Safe.raiseIf (fun _ _ => hw₁) fun _ => ?_)
  refine Safe.bind ((Safe.of_uses hR.stable_submitting hR.get_keeps hw₁).mono fun r w₂ h₂ => ?_)
  rcases r with e | c
  · exact fun _ => h₂.1
  refine Safe.bind (Safe.raiseIf (fun _ _ => h₂.1) fun _ => ?_)
  refine Safe.bind ((hR.call_safe rfl hR.stable_submitting h₂.1).mono fun r w₃ hw₃ => ?_)
  rcases r with e | _
  · exact fun _ => hw₃
  refine Safe.ensure ((hR.accept_safe hw₃).mono fun r w₄ hw₄ => ?_)
  refine (hR.unlock_safe (G := fun w => Settling cfg A t → Closed t r w)
    (fun w w' h hw hs => (hw hs).grown (hR.grown h)) hw₄).mono fun y w₅ h₅ => ?_
  obtain ⟨⟨_, rfl⟩, hw₅⟩ := h₅
  exact hw₅

end

/-! ## The calls -/

section
variable {cfg : ConversationConfig V} {A : Allow cfg.sem.Ans Exn (ConversationWorld V)}
  {R : Contract (ConversationWorld V)} {t : Nat} {w : ConversationWorld V}

/-- **Every call keeps a tolerant contract**, if a recovery does. -/
theorem Tolerant.task_safe (hR : Tolerant R)
    (hu : ∀ m, Keeps cfg.sem A R t (Listed m) (.updateMessage .recovered (interrupted cfg m)))
    (he : ∀ (c : Conversation) id sequence data, Keeps cfg.sem A R t
      (fun w => t ∈ w.started ∧ w.turns.get t = none)
      (.publish ⟨"assistant.message.failed", c.id, c.tenantId, some id, sequence, data⟩))
    (c : ConversationCall V) (hw : w.Entered t) :
    Safe cfg.sem A R t (fun _ w' => t ∈ w'.started ∧ w'.turns.get t = none) (c.task cfg) w := by
  have hcall : R.Stable t fun w => t ∈ w.started ∧ w.turns.get t = none :=
    fun w w' h hg => ⟨(hR.grown h).started hg.1, (hR.grown h).call hg.1 hg.2⟩
  have safe : Safe cfg.sem A R t (fun _ _ => True) (c.task cfg) w := by
    have dropped : ∀ {α : Type} {p : Talk V α},
        p.Uses (Keeps cfg.sem A R t fun _ => True) →
        Safe cfg.sem A R t (fun _ _ => True) (Talk.drop p) w := fun hp =>
      (Safe.of_uses (fun _ _ _ h => h) (Prog.Uses.bind hp fun _ => Prog.Uses.pure _)
        trivial).mono fun _ _ _ => trivial
    cases c with
    | submit x =>
      refine Safe.bind ((hR.submit_safe hw.submitting).mono fun r w' _ => ?_)
      cases r <;> trivial
    | update conversationId tenantId userId title status => exact dropped hR.update_keeps
    | cancel conversationId tenantId => exact dropped hR.cancel_keeps
    | recover limit =>
      refine Safe.bind ((hR.recover_safe hu he ⟨hw.started, hw.call⟩).mono fun r w' _ => ?_)
      cases r <;> trivial
    | shutdown => exact dropped hR.shutdown_keeps
  refine (safe.and_uses hcall (Prog.Uses.all (fun o b w a r w' hg h => ?_) _)
    ⟨hw.started, hw.call⟩).mono fun _ _ h => h.2
  obtain ⟨hs, ht⟩ := ConversationConfig.act_turns h hg.1
  exact ⟨hs, ht.trans hg.2⟩

end

/-! ## The system -/

/-- What a submit leaves behind: both messages and a task for the response, or no message. -/
def Atomic (t : Nat) (r : Except Exn (ConversationReply V)) (w : ConversationWorld V) : Prop :=
  match r with
  | .ok m => ∃ u a, m = some (u, a) ∧ Accepted u a w
  | .error _ => ∀ id c, w.issued.get id = some (some t) → w.store.message c id = none

/-- The submits settle. -/
def ConversationConfig.settles (cfg : ConversationConfig V) (calls : Nat → ConversationCall V) :
    Allow cfg.sem.Ans Exn (ConversationWorld V) :=
  fun t w o a => w.turns.get t = none → (∃ x, calls t = .submit x) → o.Settles w a

/-- Nothing is asked of the responses. -/
def plainContract : Contract (ConversationWorld V) :=
  turnContract (fun _ _ _ => True) (fun _ _ => trivial) fun _ _ _ _ _ _ _ => trivial

theorem plain_tolerant : Tolerant (plainContract (V := V)) :=
  turnContract_tolerant fun _ _ _ _ => trivial

section
variable {cfg : ConversationConfig V} {A : Allow cfg.sem.Ans Exn (ConversationWorld V)}
  {t : Nat} {G : ConversationWorld V → Prop}

theorem plain_update {site : UpdateSite} {m : ConversationMessage V}
    (hm : ∀ w : ConversationWorld V, Sound w → G w → Listed m w ∧ (m.status = .completed →
      ∃ d x, w.turns.get d = some x ∧ d ∈ w.started ∧ x.assistantMessage.id = m.id)) :
    Keeps cfg.sem A plainContract t G (.updateMessage site m) := by
  intro b w a r w' hv hg ha hact
  rcases ConversationConfig.act_updateMessage hact with ⟨hq, -⟩ | ⟨store, hs, hst, -⟩
  · exact plain_tolerant.quiet hv hq
  · obtain ⟨hw, hr⟩ := update_sound hv (hm w hv hg).1 (hm w hv hg).2 hs
    have h := plain_tolerant.then_quiet (N := fun _ => True)
      ⟨hw, fun t' _ => ⟨hr t', trivial⟩⟩ hst.quiet
    exact ⟨h.1, fun t' => h.2 t' trivial⟩

theorem plain_publish {e : ConversationEvent V} :
    Keeps cfg.sem A plainContract t G (.publish e) := by
  intro b w a r w' hv hg ha hact
  rcases ConversationConfig.act_publish hact with ⟨hq, -⟩ | hq
  · exact plain_tolerant.quiet hv hq
  · have hw : Sound { w with events := e :: w.events } :=
      Sound.same hv rfl rfl rfl (Finset.Subset.refl _)
    have h := plain_tolerant.then_quiet (N := fun _ => True) (w := w)
      ⟨hw, fun t' _ => ⟨Grown.same rfl rfl rfl (Finset.Subset.refl _), trivial⟩⟩ hq
    exact ⟨h.1, fun t' => h.2 t' trivial⟩

end

section
variable (cfg : ConversationConfig V) (calls : Nat → ConversationCall V)

/-- How a submit ends. -/
def SubmitEnds (t : Nat) (r : Except Exn (ConversationReply V)) (w : ConversationWorld V) : Prop :=
  w.turns.get t = none → (∃ x, calls t = .submit x) → ∃ r', r = r'.map some ∧ Closed t r' w

theorem submitEnds_lasting :
    Sys.Lasting (conversationSys cfg (cfg.settles calls) calls) plainContract (SubmitEnds calls) where
  rely {t r w w'} hr h hn hc := by
    have hw : w.turns.get t = none := by
      rcases hx : w.turns.get t with _ | x
      · rfl
      · exact absurd ((hr.1.turns t x hx).symm.trans hn) (by simp)
    obtain ⟨r', he, hclosed⟩ := h hw hc
    exact ⟨r', he, hclosed.grown hr.1⟩
  fin {t r w} _ h hn hc := by
    obtain ⟨r', he, hclosed⟩ := h hn hc
    exact ⟨r', he, hclosed.grown (Grown.same rfl rfl rfl (Finset.Subset.refl _))⟩

theorem submits_respect : Sys.Respects (conversationSys cfg (cfg.settles calls) calls)
    plainContract (SubmitEnds calls) := by
  have dropped : ∀ {t w} {α : Type} {p : Talk V α}, (¬ ∃ x, calls t = .submit x) →
      p.Uses (Keeps cfg.sem (cfg.settles calls) plainContract t fun _ => True) →
      Safe cfg.sem (cfg.settles calls) plainContract t (SubmitEnds calls t) (Talk.drop p) w := by
    intro t w α p hc hp
    refine (Safe.of_uses (fun _ _ _ h => h) (Prog.Uses.bind hp fun _ => Prog.Uses.pure _)
      trivial).mono fun r w' _ _ hx => absurd hx hc
  refine plain_tolerant.respects (fun t w hv hw => ?_) fun t x w hv ht hx _ => ?_
  · cases hcall : calls t with
    | submit x =>
      refine Safe.bind ((plain_tolerant.submit_safe hw.submitting).mono fun r w' h => ?_)
      rcases r with e | m
      · exact fun _ hx => ⟨.error e, rfl, h fun w o a ha hn => ha hn hx⟩
      · exact fun _ hx => ⟨.ok m, rfl, h fun w o a ha hn => ha hn hx⟩
    | update conversationId tenantId userId title status =>
      exact dropped (by simp [hcall]) plain_tolerant.update_keeps
    | cancel conversationId tenantId => exact dropped (by simp [hcall]) plain_tolerant.cancel_keeps
    | recover limit =>
      have hnot : ¬ ∃ x, calls t = .submit x := by simp [hcall]
      refine Safe.bind ((plain_tolerant.recover_safe (fun m => plain_update fun w _ h => ⟨h, nofun⟩)
        (fun c id sequence data => plain_publish) ⟨hw.started, hw.call⟩).mono fun r w' _ => ?_)
      rcases r with e | n
      · exact fun _ hx => absurd hx hnot
      · exact fun _ hx => absurd hx hnot
    | shutdown => exact dropped (by simp [hcall]) plain_tolerant.shutdown_keeps
  · -- a response stays one
    have hstable : plainContract.Stable t fun w => t ∈ w.started ∧ w.turns.get t = some x :=
      fun w w' h hg => ⟨h.1.started hg.1, h.1.turns t x hg.2⟩
    refine (Safe.of_uses hstable ?_ ⟨ht, hx⟩).mono fun r w' h hn => ?_
    · refine Prog.Uses.bind (respond_uses ⟨fun o ho => plain_tolerant.keeps_quiet ho,
        fun e _ => plain_publish⟩ fun site m hm => ?_) fun _ => Prog.Uses.pure _
      exact plain_update fun w hw hg => ⟨hm.listed (hw.turn t x hg.2),
        fun _ => ⟨t, x, hg.2, hg.1, hm.id.symm⟩⟩
    · exact absurd (h.1.2.symm.trans hn) (by simp)

/-- **A submit is atomic** while its awaits after the first append neither fail nor are
    interrupted, whatever the other calls and the responses do. -/
theorem submit_atomic {w₀ : ConversationWorld V} (h₀ : w₀.Fresh)
    {l : List (Event _ cfg.sem.Ans Exn (ConversationReply V))} {P : Pool _ Exn _ _}
    (h : (conversationSys cfg (cfg.settles calls) calls).Trace (quietPool w₀) l P)
    {t : Nat} {x : Submission V} {r : Except Exn (ConversationReply V)} (hc : calls t = .submit x)
    (hn : P.world.turns.get t = none) (he : .ended t r ∈ l) : Atomic t r P.world := by
  have hv : plainContract.valid (quietPool w₀).world := h₀.sound
  obtain ⟨r', rfl, hclosed⟩ := h.settled (submits_respect cfg calls) (submitEnds_lasting cfg calls)
    conversationSys_once (fun _ => rfl) hv t r he hn ⟨x, hc⟩
  rcases r' with e | ⟨u, a⟩
  · exact fun id c hid => Submitting.clean hclosed id hid nofun c
  · exact ⟨u, a, rfl, hclosed.2⟩

end

namespace TalkSample

def hellos (_ : Nat) : ConversationCall String := .submit hello

/-- Everything goes well. -/
def settled : Player (conversationSys talking (talking.settles hellos) hellos) :=
  conversationPlayer talking hellos
    (fun _ w o a => passing a && match o with
      | .save c expectedVersion => match w.store.save c expectedVersion with
        | .ok _ => true
        | .error _ => false
      | _ => true)
    (by
      intro t w o a h _ _
      obtain ⟨ha, hs⟩ := Bool.and_eq_true_iff.1 h
      have hp := passes_of_passing ha
      cases o with
      | save c expectedVersion =>
        dsimp only at hs
        split at hs
        · rename_i x hx
          exact ⟨hp, x, hx⟩
        · cases hs
      | appendMessage m =>
        simp only [ConversationOp.Settles]
        split
        · obtain ⟨c, rfl⟩ := hp
          exact fun _ _ h => nomatch h
        · exact hp
      | nextSequence | publish | audit => exact hp
      | _ => trivial)

/-- The event that says a message has been accepted is not published. -/
def publishFails {cfg : ConversationConfig String} :
    (o : ConversationOp String) → Act cfg.sem.Ans Exn o
  | .publish _ => .done (Answer.error (.other "ConnectionError"))
  | o => calmly o

/-- Everything can happen. -/
def anything : Player (conversationSys talking (fun _ _ _ _ => True) hellos) :=
  conversationPlayer talking hellos (fun _ _ _ _ => true) fun _ _ _ _ _ => trivial

end TalkSample

open TalkSample

/-- A submit that goes through. -/
theorem submit_atomic_sample : ∃ l P r,
    (conversationSys talking (talking.settles hellos) hellos).Trace (quietPool talks) l P ∧
      .ended 0 r ∈ l ∧ Atomic 0 r P.world := by
  obtain ⟨l, P, hP, h⟩ := settled.exists_trace (submits 0 1 "u" "a") (quietPool talks)
    (fun x => (lastEnds 0 Except.isOk x.1, x.2.world.turns.get 0)) (a := (true, none))
    (by decide +kernel)
  obtain ⟨hend, hn⟩ := Prod.mk.inj h
  obtain ⟨r, he, -⟩ := exists_of_lastEnds hend
  exact ⟨l, P, r, hP, he, submit_atomic talking hellos talks_fresh hP (x := hello) rfl hn he⟩

/-- The event bus fails: `submit` raises, with both messages stored and no response. -/
theorem submit_torn : ¬ ∀ (cfg : ConversationConfig String) (calls : Nat → ConversationCall String)
    (w₀ : ConversationWorld String), w₀.Fresh →
    ∀ l P, (conversationSys cfg (fun _ _ _ _ => True) calls).Trace (quietPool w₀) l P →
      ∀ t x r, calls t = .submit x → P.world.turns.get t = none → .ended t r ∈ l →
        Atomic t r P.world := by
  intro hclaim
  obtain ⟨l, P, hP, h⟩ := anything.exists_trace
    (asks 0 "u" ++ [.run 0 (idIs "a")] ++ calm 0 3 ++ [.run 0 publishFails] ++ calm 0 1)
    (quietPool talks) (fun x => (lastEnds 0 (fun r => !r.isOk) x.1, x.2.world.turns.get 0,
      x.2.world.issued.get "u", (x.2.world.store.message "c" "u").isSome))
    (a := (true, none, some (some 0), true)) (by decide +kernel)
  simp only [Prod.mk.injEq] at h
  obtain ⟨hend, hn, hid, hstored⟩ := h
  obtain ⟨r, he, herr⟩ := exists_of_lastEnds hend
  have hatomic := hclaim talking hellos talks talks_fresh l P hP 0 hello r rfl hn he
  rcases r with e | m
  · rw [hatomic "u" "c" hid] at hstored
    cases hstored
  · cases herr

end TracciaRuntime
