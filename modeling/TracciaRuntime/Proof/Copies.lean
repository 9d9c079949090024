/-
  The origins of the messages of a run.

  * `Piece`: a message with its origin; `packPieces`, `Build.pieces`: what the builders do with
    pieces, which is what they do with the messages (`Build.pieces_messages`);
  * `TaggedRun.Step`: what changes the messages of a run, in any order;
  * `Once`: no message twice; a build takes over the instructions and the memory of the build
    before it and adds them again, so that it holds as long as no build does.
-/
import TracciaRuntime.Proof.Context
import TracciaRuntime.Runtime.System
import TracciaRuntime.Persistence.Memory

namespace TracciaRuntime

open Py Async

variable {V : Type}

/-- Where a message of a run comes from. -/
inductive Origin where
  | instructions
  | memory (item : Nat)
  | evidence
  /-- the request is the first one -/
  | said (n : Nat)
  deriving DecidableEq

/-- A message with its origin. -/
structure Piece (V : Type) where
  origin : Origin
  message : Message V

/-- No message twice; the evidence is not one of them. -/
def Once (pieces : List (Piece V)) : Prop :=
  ∀ o, o ≠ .evidence → (pieces.map Piece.origin).count o ≤ 1

theorem Once.of_subperm {ps qs : List (Piece V)} (h : Once qs)
    (hs : (ps.map Piece.origin).Subperm (qs.map Piece.origin)) : Once ps :=
  fun o ho => (hs.count_le o).trans (h o ho)

/-! ## Packing -/

theorem packLoop_sublist {α : Type} {text : α → String} {remaining : Int}
    {selected items : List α} :
    (packLoop text remaining selected items).Sublist (selected ++ items) := by
  induction items generalizing remaining selected with
  | nil =>
    rw [List.append_nil]
    exact List.Sublist.refl _
  | cons item items ih =>
    simp only [packLoop]
    split_ifs
    · exact ih.trans (List.Sublist.append_left (List.sublist_cons_self ..) _)
    · exact List.Sublist.append_left (List.singleton_sublist.2 List.mem_cons_self) _
    · refine ih.trans ?_
      rw [List.append_assoc]
      exact List.Sublist.refl _

/-- `pack`. -/
def packPieces (bound : Int) (pieces : List (Piece V)) : List (Piece V) :=
  (packLoop (fun p => p.message.textContent) bound [] pieces.reverse).reverse

theorem packPieces_messages (bound : Int) (pieces : List (Piece V)) :
    (packPieces bound pieces).map Piece.message =
      DefaultContextBuilder.pack ⟨bound⟩ (pieces.map Piece.message) := by
  unfold packPieces DefaultContextBuilder.pack
  rw [List.map_reverse, ← packLoop_map, List.map_nil, List.map_reverse]

theorem packPieces_sublist (bound : Int) (pieces : List (Piece V)) :
    (packPieces bound pieces).Sublist pieces := by
  have h : (packPieces bound pieces).Sublist ([] ++ pieces.reverse).reverse := packLoop_sublist.reverse
  rwa [List.nil_append, List.reverse_reverse] at h

/-! ## Builds -/

/-- A run with the origins of its messages. -/
structure TaggedRun (V : Type) where
  run : RunState V
  pieces : List (Piece V) := []
  /-- how many messages have been said, with the request -/
  said : Nat := 1

/-- The two builders; the retriever and the cache are as they are at the build. -/
inductive Builder (V : Type) where
  | default (b : DefaultContextBuilder)
  | retrieval (b : RetrievalContextBuilder V) (cache : Option (RetrievalCache V))
      (retrieve : RetrievalQuery V → Except Exn (List (RetrievedDocument V)))
      (kept : Dict String (List (RetrievedDocument V)))

/-- A build, with what the memory answers. -/
structure Build (V : Type) where
  builder : Builder V
  systemInstructions : String
  history : List (Piece V)
  memory : ∀ p ∈ history, ∃ i, p.origin = .memory i
  nodup : (history.map Piece.origin).Nodup

namespace Build

/-- What a memory store keeps, item by item. -/
def logPieces (log : List (Message V)) : List (Piece V) :=
  log.mapIdx fun i m => ⟨.memory i, m⟩

/-- A build with the items that the memory store gets. -/
def ofMemory (builder : Builder V) (systemInstructions : String) (log : List (Message V))
    (limit : Nat) : Build V where
  builder := builder
  systemInstructions := systemInstructions
  history := InMemoryMemoryStore.get (logPieces log) limit
  memory := by
    intro p hp
    have hmem : p ∈ logPieces log := by
      unfold InMemoryMemoryStore.get at hp
      split at hp
      · exact hp
      · exact List.mem_of_mem_drop hp
    obtain ⟨i, hi, rfl⟩ := List.mem_mapIdx.1 hmem
    exact ⟨i, rfl⟩
  nodup := by
    have hlog : ((logPieces log).map Piece.origin).Nodup := by
      have hr : (logPieces log).map Piece.origin = (List.range log.length).map Origin.memory := by
        apply List.ext_getElem
        · simp [logPieces]
        · intro i h₁ h₂
          simp [logPieces]
      rw [hr]
      exact List.nodup_range.map fun i j h => by cases h; rfl
    unfold InMemoryMemoryStore.get
    split
    · exact hlog
    · exact hlog.sublist ((List.drop_sublist ..).map _)

theorem ofMemory_history {builder : Builder V} {systemInstructions : String}
    {log : List (Message V)} {limit : Nat} :
    (ofMemory builder systemInstructions log limit).history.map Piece.message =
      InMemoryMemoryStore.get log limit := by
  have hlog : (logPieces log).map Piece.message = log := by
    apply List.ext_getElem
    · simp [logPieces]
    · intro i h₁ h₂
      simp [logPieces]
  have hlen : (logPieces log).length = log.length := by simp [logPieces]
  unfold ofMemory InMemoryMemoryStore.get
  dsimp only
  split
  · exact hlog
  · rw [List.map_drop, hlog, hlen]

/-- The messages and the citations of the build. -/
def Gives (x : Build V) (s : RunState V) (messages : List (Message V))
    (citations : List Citation) : Prop :=
  match x.builder with
  | .default b =>
    b.build x.systemInstructions (x.history.map Piece.message) s = messages ∧
      s.citations = citations
  | .retrieval b cache retrieve kept =>
    b.build cache retrieve kept x.systemInstructions (x.history.map Piece.message) s =
      .ok (messages, citations)

/-- What the build takes over from the messages of the run. -/
def taken (x : Build V) (t : TaggedRun V) : List (Piece V) :=
  match x.builder with
  | .default _ => t.pieces
  | .retrieval .. => t.pieces.filter fun p =>
    !(p.message.role = .system && (p.message.textContent = x.systemInstructions ||
      RetrievalContextBuilder.generatedPrefix.toList.isPrefixOf p.message.textContent.toList))

/-- The instructions, and the memory followed by the messages taken over, or by the request. -/
def instructions (x : Build V) : Piece V := ⟨.instructions, .text .system x.systemInstructions⟩

def rest (x : Build V) (t : TaggedRun V) : List (Piece V) :=
  x.history ++ if x.taken t = [] then [⟨.said 0, .text .user t.run.request.input⟩] else x.taken t

/-- The pieces of the build. -/
def pieces (x : Build V) (t : TaggedRun V) : List (Piece V) :=
  match x.builder with
  | .default b => packPieces b.maxTokens (x.instructions :: x.rest t)
  | .retrieval b cache retrieve kept =>
    match b.documents cache retrieve kept t.run with
    | .error _ => []
    | .ok found =>
      if b.select found = [] then x.instructions :: x.rest t
      else packPieces b.maxContextTokens (x.instructions ::
        ⟨.evidence, RetrievalContextBuilder.evidence (b.select found)⟩ :: x.rest t)

variable {x : Build V} {t : TaggedRun V} {messages : List (Message V)} {citations : List Citation}

theorem documents_of_build {b : RetrievalContextBuilder V} {cache : Option (RetrievalCache V)}
    {retrieve : RetrievalQuery V → Except Exn (List (RetrievedDocument V))}
    {kept : Dict String (List (RetrievedDocument V))} {systemInstructions : String}
    {history : List (Message V)} {s : RunState V}
    (h : b.build cache retrieve kept systemInstructions history s = .ok (messages, citations)) :
    ∃ found, b.documents cache retrieve kept s = .ok found ∧
      b.context systemInstructions history s (b.select found) = (messages, citations) := by
  obtain ⟨found, hr, h⟩ := bind_eq_ok.1 h
  obtain ⟨copies, hc, h⟩ := bind_eq_ok.1 h
  exact ⟨copies, bind_eq_ok.2 ⟨found, hr, hc⟩, Except.ok.inj h⟩

theorem rest_messages (ht : t.run.messages = t.pieces.map Piece.message) :
    (x.rest t).map Piece.message = x.history.map Piece.message ++
      (match x.builder with
        | .default _ =>
          if t.run.messages = [] then [.text .user t.run.request.input] else t.run.messages
        | .retrieval .. =>
          let spoken := RetrievalContextBuilder.transcript x.systemInstructions t.run.messages
          if spoken = [] then [.text .user t.run.request.input] else spoken) := by
  have hif : ∀ (taken : List (Piece V)) (messages : List (Message V)),
      messages = taken.map Piece.message →
      (if taken = [] then [(⟨.said 0, .text .user t.run.request.input⟩ : Piece V)]
        else taken).map Piece.message =
        if messages = [] then [.text .user t.run.request.input] else messages := by
    rintro taken _ rfl
    cases taken <;> rfl
  unfold rest
  rw [List.map_append]
  congr 1
  cases hx : x.builder with
  | default b =>
    refine hif _ _ ?_
    simp only [taken, hx]
    exact ht
  | retrieval b cache retrieve kept =>
    refine hif _ _ ?_
    simp only [taken, hx]
    rw [ht, RetrievalContextBuilder.transcript, List.filter_map]
    rfl

/-- **The pieces are the messages of the build.** -/
theorem pieces_messages (ht : t.run.messages = t.pieces.map Piece.message)
    (h : x.Gives t.run messages citations) : messages = (x.pieces t).map Piece.message := by
  have hrest := rest_messages (x := x) ht
  unfold Gives at h
  unfold pieces
  cases hx : x.builder with
  | default b =>
    simp only [hx] at h hrest ⊢
    rw [packPieces_messages, List.map_cons, hrest, ← h.1]
    rfl
  | retrieval b cache retrieve kept =>
    simp only [hx] at h hrest ⊢
    obtain ⟨found, hf, hc⟩ := documents_of_build h
    rw [RetrievalContextBuilder.context_def] at hc
    have hm := congrArg Prod.fst hc
    rw [hf]
    dsimp only at hm ⊢
    by_cases hs : b.select found = []
    · rw [if_pos hs] at hm ⊢
      rw [List.map_cons, hrest, ← hm]
      rfl
    · rw [if_neg hs] at hm ⊢
      rw [packPieces_messages, List.map_cons, List.map_cons, hrest, ← hm]
      rfl

/-- What the build takes over is not what it adds. -/
def New (x : Build V) (t : TaggedRun V) : Prop :=
  ∀ p ∈ x.taken t, p.origin ≠ .instructions ∧ p.origin ∉ x.history.map Piece.origin

theorem taken_sublist : (x.taken t).Sublist t.pieces := by
  unfold taken
  split
  · exact List.Sublist.refl _
  · exact List.filter_sublist

/-- The messages taken over, or the request. -/
theorem count_said (ht : Once t.pieces) {said : List (Piece V)} (hs : said =
    if x.taken t = [] then [⟨.said 0, .text .user t.run.request.input⟩] else x.taken t) {o : Origin}
    (ho : o ≠ .evidence) : (said.map Piece.origin).count o ≤ 1 ∧
      ((∀ p ∈ x.taken t, p.origin ≠ o) → o ≠ .said 0 → (said.map Piece.origin).count o = 0) := by
  subst hs
  split_ifs
  · constructor
    · exact List.count_le_length
    · intro _ hne
      refine List.count_eq_zero.2 fun hmem => ?_
      exact hne (List.mem_singleton.1 hmem)
  · constructor
    · exact ((taken_sublist.map _).count_le o).trans (ht o ho)
    · intro hnone _
      refine List.count_eq_zero.2 fun hmem => ?_
      obtain ⟨p, hp, hpo⟩ := List.mem_map.1 hmem
      exact hnone p hp hpo

theorem once_rest (ht : Once t.pieces) (hn : x.New t) : Once (x.instructions :: x.rest t) := by
  intro o ho
  have hhistory : (x.history.map Piece.origin).count o ≤ 1 :=
    List.nodup_iff_count_le_one.1 x.nodup o
  have hmemory : (∀ i, o ≠ .memory i) → (x.history.map Piece.origin).count o = 0 := by
    intro hne
    refine List.count_eq_zero.2 fun hmem => ?_
    obtain ⟨p, hp, rfl⟩ := List.mem_map.1 hmem
    obtain ⟨i, hi⟩ := x.memory p hp
    exact hne i hi
  obtain ⟨hsaid, hnone⟩ := count_said (x := x) ht rfl ho
  unfold rest
  rw [List.map_cons, List.map_append, List.count_cons, List.count_append]
  -- the instructions, an item of the memory, or something said
  cases o with
  | evidence => exact absurd rfl ho
  | instructions =>
    have h₁ := hmemory fun i h => by cases h
    have h₂ := hnone (fun p hp => (hn p hp).1) fun h => by cases h
    rw [h₁, h₂]
    split <;> omega
  | memory i =>
    have hself : (x.instructions.origin == .memory i) = false := rfl
    rw [hself]
    by_cases hi : .memory i ∈ x.history.map Piece.origin
    · have h₂ := hnone (fun p hp h => (hn p hp).2 (h ▸ hi)) fun h => by cases h
      rw [h₂]
      simpa using hhistory
    · rw [List.count_eq_zero.2 hi]
      simpa using hsaid
  | said n =>
    have hself : (x.instructions.origin == .said n) = false := rfl
    rw [hself, hmemory fun i h => by cases h]
    simpa using hsaid

theorem once_pieces (ht : Once t.pieces) (hn : x.New t) : Once (x.pieces t) := by
  have hrest := once_rest ht hn
  have hpack : ∀ {bound : Int} {ps : List (Piece V)},
      ((packPieces bound ps).map Piece.origin).Subperm (ps.map Piece.origin) :=
    fun {bound ps} => ((packPieces_sublist bound ps).map _).subperm
  unfold pieces
  split
  · exact hrest.of_subperm hpack
  · split
    · intro o _
      simp
    · split_ifs
      · exact hrest
      · refine Once.of_subperm ?_ hpack
        intro o ho
        have h := hrest o ho
        have hev : ¬ Origin.evidence = o := fun h => ho h.symm
        simp only [List.map_cons, List.count_cons, beq_iff_eq, hev, if_false] at h ⊢
        exact h

theorem mem_pieces {p : Piece V} (hp : p ∈ x.pieces t) : p.origin = .instructions ∨
    p.origin = .evidence ∨ (∃ i, p.origin = .memory i) ∨ p.origin = .said 0 ∨ p ∈ t.pieces := by
  have hrest : p ∈ x.instructions :: x.rest t → p.origin = .instructions ∨
      (∃ i, p.origin = .memory i) ∨ p.origin = .said 0 ∨ p ∈ t.pieces := by
    intro hp
    rcases List.mem_cons.1 hp with rfl | hp
    · exact .inl rfl
    · rcases List.mem_append.1 hp with hp | hp
      · exact .inr (.inl (x.memory p hp))
      · split_ifs at hp
        · rw [List.mem_singleton.1 hp]
          exact .inr (.inr (.inl rfl))
        · exact .inr (.inr (.inr (taken_sublist.subset hp)))
  unfold pieces at hp
  split at hp
  · exact (hrest ((packPieces_sublist ..).subset hp)).imp_right .inr
  · split at hp
    · cases hp
    · split_ifs at hp
      · exact (hrest hp).imp_right .inr
      · rcases List.mem_cons.1 ((packPieces_sublist ..).subset hp) with rfl | hp
        · exact .inl rfl
        · rcases List.mem_cons.1 hp with rfl | hp
          · exact .inr (.inl rfl)
          · exact (hrest (List.mem_cons_of_mem _ hp)).imp_right .inr

end Build

/-! ## Runs -/

namespace AgentRuntime

/-- The state that `repair` saves. -/
def repaired (s : RunState V) : RunState V :=
  { s with
    attemptCount := s.attemptCount + 1
    outputText := none
    messages := s.messages ++
      [.text .system "Repair the previous response to satisfy validation."]
    summary := { s.summary with retries := s.summary.retries + 1 } }

theorem repair_eq (s : RunState V) : repair s = (do
    let s ← transition (repaired s) .retrying
    transition s .planning) := rfl

/-- The state that `clarify` saves. -/
def clarified (s : RunState V) (clarification : String) : RunState V :=
  { s with
    messages := s.messages ++ [.text .user clarification]
    pausePayload := none }

theorem clarify_eq (s : RunState V) (payload : ResumePayload V) : clarify s payload = (do
    Prog.raiseIf (strip payload.clarification = "") (.valueError "clarification is required")
    transition (clarified s (strip payload.clarification)) .buildingContext) := rfl

end AgentRuntime

namespace TaggedRun

open AgentRuntime

variable {cfg : Config V} {t u : TaggedRun V} {s s' : RunState V}

/-- What adds to the messages of a run, or leaves them as they are. -/
inductive Tells (cfg : Config V) (s : RunState V) : RunState V → Prop
  | response (response : ModelResponse V) : Tells cfg s (withResponse s response)
  | result (definition : ToolDefinition V) (callId : String) (result : ToolResult V) :
      Tells cfg s (withResult cfg s definition callId result)
  | repair : Tells cfg s (repaired s)
  | clarification (text : String) : Tells cfg s (clarified s text)
  | other {s' : RunState V} : s'.messages = s.messages → Tells cfg s s'

theorem Tells.messages (h : Tells cfg s s') : ∃ more, s'.messages = s.messages ++ more := by
  cases h with
  | response response =>
    unfold withResponse
    dsimp only
    split_ifs
    · exact ⟨[], (List.append_nil _).symm⟩
    · exact ⟨_, rfl⟩
  | result | repair | clarification => exact ⟨_, rfl⟩
  | other h => exact ⟨[], by rw [h, List.append_nil]⟩

/-- The new messages are said. -/
def tell (t : TaggedRun V) (s : RunState V) : TaggedRun V where
  run := s
  pieces := t.pieces ++
    (s.messages.drop t.pieces.length).mapIdx fun k m => ⟨.said (t.said + k), m⟩
  said := t.said + (s.messages.length - t.pieces.length)

/-- The run with the messages of a build. -/
def build (t : TaggedRun V) (x : Build V) (messages : List (Message V))
    (citations : List Citation) : TaggedRun V :=
  { t with run := { t.run with messages, citations }, pieces := x.pieces t }

/-- A step of a run; a policy can change messages and leave some out. -/
inductive Step (cfg : Config V) (t : TaggedRun V) : Option (Build V) → TaggedRun V → Prop
  | built {messages : List (Message V)} {citations : List Citation} (x : Build V) :
      x.Gives t.run messages citations → Step cfg t (some x) (t.build x messages citations)
  | screened (ps : List (Piece V)) :
      (ps.map Piece.origin).Subperm (t.pieces.map Piece.origin) → Step cfg t none
        { t with run := { t.run with messages := ps.map Piece.message }, pieces := ps }
  | told {s : RunState V} : Tells cfg t.run s → Step cfg t none (t.tell s)

/-- A step that adds nothing that it takes over. -/
def NewStep (cfg : Config V) (t u : TaggedRun V) : Prop :=
  ∃ e, Step cfg t e u ∧ ∀ x, e = some x → x.New t

/-- The messages have one origin each. -/
structure Tagged (t : TaggedRun V) : Prop where
  messages : t.run.messages = t.pieces.map Piece.message
  once : Once t.pieces
  bound : ∀ p ∈ t.pieces, ∀ n, p.origin = .said n → n < t.said
  pos : 0 < t.said

theorem Tagged.start {s : RunState V} (hs : s.messages = []) : Tagged { run := s } where
  messages := hs
  once := fun _ _ => Nat.zero_le _
  bound := fun _ hp => by cases hp
  pos := Nat.zero_lt_one

theorem Tagged.tell (h : t.Tagged) (hs : Tells cfg t.run s) : (t.tell s).Tagged := by
  obtain ⟨more, hm⟩ := hs.messages
  have hlen : t.pieces.length = t.run.messages.length := by rw [h.messages, List.length_map]
  have hdrop : s.messages.drop t.pieces.length = more := by
    rw [hm, hlen, List.drop_left]
  have hsub : s.messages.length - t.pieces.length = more.length := by
    rw [hm, hlen, List.length_append, Nat.add_sub_cancel_left]
  have hnew : ∀ p ∈ more.mapIdx (fun k m => (⟨.said (t.said + k), m⟩ : Piece V)),
      ∃ k < more.length, p.origin = .said (t.said + k) := by
    intro p hp
    obtain ⟨k, hk, rfl⟩ := List.mem_mapIdx.1 hp
    exact ⟨k, hk, rfl⟩
  have horigins : (more.mapIdx fun k m => (⟨.said (t.said + k), m⟩ : Piece V)).map Piece.origin =
      (List.range more.length).map fun k => .said (t.said + k) := by
    apply List.ext_getElem
    · simp
    · intro i h₁ h₂
      simp
  unfold TaggedRun.tell
  rw [hdrop, hsub]
  constructor
  · rw [List.map_append, hm, h.messages]
    congr 1
    apply List.ext_getElem
    · simp
    · intro i h₁ h₂
      simp
  · intro o ho
    dsimp only
    rw [List.map_append, List.count_append]
    have hold := h.once o ho
    have hfresh : ((more.mapIdx fun k m => (⟨.said (t.said + k), m⟩ : Piece V)).map
        Piece.origin).count o ≤ 1 := by
      rw [horigins]
      exact List.nodup_iff_count_le_one.1 (List.nodup_range.map fun i j hij => by simpa using hij) o
    -- what is new has a number that no message has
    by_cases hin : o ∈ t.pieces.map Piece.origin
    · have hzero : ((more.mapIdx fun k m => (⟨.said (t.said + k), m⟩ : Piece V)).map
          Piece.origin).count o = 0 := by
        refine List.count_eq_zero.2 fun hmem => ?_
        obtain ⟨p, hp, hpo⟩ := List.mem_map.1 hin
        obtain ⟨q, hq, hqo⟩ := List.mem_map.1 hmem
        obtain ⟨k, -, hk⟩ := hnew q hq
        have hlt := h.bound p hp (t.said + k) (by rw [hpo, ← hqo, hk])
        omega
      omega
    · rw [List.count_eq_zero.2 hin]
      omega
  · intro p hp n hn
    dsimp only at hp ⊢
    rcases List.mem_append.1 hp with hp | hp
    · have hlt := h.bound p hp n hn
      omega
    · obtain ⟨k, hk, hpk⟩ := hnew p hp
      rw [hpk] at hn
      cases hn
      omega
  · have hpos := h.pos
    dsimp only
    omega

theorem Tagged.build {x : Build V} {messages : List (Message V)} {citations : List Citation}
    (h : t.Tagged) (hg : x.Gives t.run messages citations) (hn : x.New t) :
    (t.build x messages citations).Tagged where
  messages := x.pieces_messages h.messages hg
  once := x.once_pieces h.once hn
  bound := by
    intro p hp n hpn
    rcases x.mem_pieces hp with ho | ho | ⟨i, ho⟩ | ho | ho
    · rw [ho] at hpn
      cases hpn
    · rw [ho] at hpn
      cases hpn
    · rw [ho] at hpn
      cases hpn
    · rw [ho] at hpn
      cases hpn
      exact h.pos
    · exact h.bound p ho n hpn
  pos := h.pos

theorem Tagged.step (h : t.Tagged) (hs : NewStep cfg t u) : u.Tagged := by
  obtain ⟨e, hs, hn⟩ := hs
  cases hs with
  | built x hg => exact h.build hg (hn x rfl)
  | screened ps hsub =>
    refine ⟨rfl, h.once.of_subperm hsub, fun p hp n hpn => ?_, h.pos⟩
    obtain ⟨q, hq, hqo⟩ := List.mem_map.1 (hsub.subset (List.mem_map_of_mem hp))
    exact h.bound q hq n (hqo.trans hpn)
  | told ht => exact h.tell ht

/-- **The model is sent no message twice** in a run none of whose builds adds what it takes over
    from the build before it. -/
theorem sent_once {s : RunState V} (hs : s.messages = [])
    (h : Relation.ReflTransGen (NewStep cfg) { run := s } t) (agent : AgentDefinition V)
    (timeoutSeconds : Option ℚ) :
    (modelRequest cfg t.run agent timeoutSeconds).messages = t.pieces.map Piece.message ∧
      Once t.pieces := by
  have ht : t.Tagged := by
    induction h with
    | refl => exact .start hs
    | tail _ hstep ih => exact ih.step hstep
  exact ⟨ht.messages, ht.once⟩

/-- A step of any kind. -/
def AnyStep (cfg : Config V) (t u : TaggedRun V) : Prop := ∃ e, Step cfg t e u

end TaggedRun

namespace Sample

/-- A run that has just been started. -/
def fresh : TaggedRun String where
  run := { id := "run", sessionId := "session", request := request }

/-- The default builder, in a session without memory. -/
def bare : Build String := .ofMemory (.default {}) "Be brief." [] 200

/-- A retrieval builder that finds nothing, in a session with one message. -/
def recalling : Build String :=
  .ofMemory (.retrieval { name := "handbook", maxQueryChars_ge := queryChars_ge } none (fun _ => .ok []) []) "Be brief."
    [.text .user "My name is Ada."] 200

/-- The run with its context. -/
def built (x : Build String) (t : TaggedRun String) : TaggedRun String :=
  t.build x ((x.pieces t).map Piece.message) []

/-- The model asks for a tool. -/
def callsTool (t : TaggedRun String) : TaggedRun String :=
  t.tell (AgentRuntime.withResponse t.run
    { id := "a-1", message := { role := .assistant, content := [] }
      toolCalls := [⟨"c-1", "send", []⟩], model := "model", provider := "provider" })

/-- The tool answers. -/
def toolAnswers (t : TaggedRun String) : TaggedRun String :=
  t.tell (AgentRuntime.withResult sendCfg t.run
    { name := "send", version := "1", description := "", inputSchema := [], outputSchema := [] }
    "c-1" { value := "sent" })

theorem reaches {x : Build String} (h₁ : x.Gives fresh.run ((x.pieces fresh).map Piece.message) [])
    (h₂ : x.Gives (toolAnswers (callsTool (built x fresh))).run
      ((x.pieces (toolAnswers (callsTool (built x fresh)))).map Piece.message) []) :
    Relation.ReflTransGen (TaggedRun.AnyStep sendCfg) fresh
      (built x (toolAnswers (callsTool (built x fresh)))) :=
  Relation.ReflTransGen.refl
    |>.tail ⟨_, .built x h₁⟩
    |>.tail ⟨_, .told (.response _)⟩
    |>.tail ⟨_, .told (.result _ _ _)⟩
    |>.tail ⟨_, .built x h₂⟩

end Sample

namespace TaggedRun

theorem sent_once_sample :
    (AgentRuntime.modelRequest Sample.sendCfg (Sample.built Sample.bare Sample.fresh).run
      Sample.agent none).messages =
        (Sample.built Sample.bare Sample.fresh).pieces.map Piece.message ∧
      Once (Sample.built Sample.bare Sample.fresh).pieces :=
  sent_once rfl (.single ⟨_, .built Sample.bare ⟨rfl, rfl⟩, fun _ h => by
    cases h
    exact fun p hp => by cases hp⟩) Sample.agent none

/-- With a second build come the instructions, or the memory, a second time. -/
theorem sent_twice :
    (∃ t, Relation.ReflTransGen (AnyStep Sample.sendCfg) Sample.fresh t ∧
      (t.pieces.map Piece.origin).count .instructions = 2) ∧
    ∃ t, Relation.ReflTransGen (AnyStep Sample.sendCfg) Sample.fresh t ∧
      (t.pieces.map Piece.origin).count (.memory 0) = 2 :=
  ⟨⟨_, Sample.reaches (x := Sample.bare) ⟨rfl, rfl⟩ ⟨rfl, rfl⟩, by decide +kernel⟩,
    ⟨_, Sample.reaches (x := Sample.recalling) rfl rfl, by decide +kernel⟩⟩

end TaggedRun

end TracciaRuntime
