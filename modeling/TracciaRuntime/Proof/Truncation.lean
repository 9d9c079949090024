/-
  Traccia Runtime formalization — truncated completions.

  * `settle`: what `_model_with_retry` makes of a response (`attemptModel_eq`);
  * the finish reasons of the four decoders: `response_finish`, `readLines_finish` and
    `complete_finish`, and `AnthropicProvider.finishReason`;
  * `truncated_iff`: which replies that report the output-token limit are rejected;
  * `truncated_accepted`: one of the Messages API that is not.
-/
import TracciaRuntime.Models.Anthropic
import TracciaRuntime.Proof.Fallback
import TracciaRuntime.Runtime.Runtime

namespace TracciaRuntime

open Py

section
variable {V : Type}

open AgentRuntime

/-- A response is returned, or the attempt fails and the response is charged. -/
def settle (s : RunState V) (request : ModelRequest V) (response : ModelResponse V) :
    Except ProviderFailure (ModelResponse V) × RunState V :=
  match validateCompletion response request with
  | none => (.ok response, s)
  | some f => (.error f, charge s response)

theorem attemptModel_eq (s : RunState V) (agent : AgentDefinition V) (request : ModelRequest V)
    (profiles : List (ModelProfile V)) (stepId : String) :
    attemptModel s agent request profiles stepId = tryCatch
      (do
        let response ← requestModel s agent request profiles stepId
        pure (settle s request response))
      (fun
        | .provider m k r => pure (.error ⟨m, k, r⟩, s)
        | e => throw e) := rfl

/-- The runtime rejects the response: nothing but its usage gets into the state of the run. -/
def Rejects (s : RunState V) (request : ModelRequest V) (response : ModelResponse V) : Prop :=
  ∃ f, settle s request response = (.error f, charge s response) ∧
    { charge s response with summary := s.summary } = s

/-- The request asks for an object of a schema, and there is no text. -/
def Blank (request : ModelRequest V) (text : String) : Prop :=
  request.responseSchema.getD [] ≠ [] ∧ strip text = ""

variable {s : RunState V} {request : ModelRequest V} {response : ModelResponse V}

theorem rejects_iff : Rejects s request response ↔ ∃ f, validateCompletion response request = some f := by
  unfold Rejects settle
  constructor
  · rintro ⟨f, h, -⟩
    rcases hv : validateCompletion response request with _ | f'
    · rw [hv] at h
      cases h
    · exact ⟨f', rfl⟩
  · rintro ⟨f, hf⟩
    exact ⟨f, by rw [hf], rfl⟩

theorem rejects_of_length (h : response.finishReason = .length) : Rejects s request response :=
  rejects_iff.2 ⟨_, by rw [validateCompletion, if_pos h]⟩

/-- A response that ends in a regular way is rejected only for its missing text. -/
theorem rejects_iff_blank (h : response.finishReason = .stop ∨ response.finishReason = .toolCalls) :
    Rejects s request response ↔ Blank request response.message.textContent := by
  have h₁ : response.finishReason ≠ .length := by rcases h with h | h <;> rw [h] <;> nofun
  have h₂ : response.finishReason ≠ .contentFilter := by rcases h with h | h <;> rw [h] <;> nofun
  rw [rejects_iff, validateCompletion, if_neg h₁, if_neg h₂, Blank]
  split
  · rename_i hb
    exact iff_of_true ⟨_, rfl⟩ hb
  · rename_i hb
    exact iff_of_false nofun hb

end

theorem textContent_text (text : String) :
    (Message.text (V := Value) .assistant text).textContent = text := by
  simp [Message.text, Message.textContent]

/-! ## OpenAI-compatible providers -/

namespace OpenAICompatibleProvider
variable {p : OpenAICompatibleProvider}

/-- The finish reason of the choice. -/
def Reports (reason : String) (data : Value) : Prop :=
  ∃ choices choice, data.subscript "choices" = .ok choices ∧
    choices.first = .ok (.dict choice) ∧ field choice "finish_reason" = .str reason

theorem response_ok {data : Value} {latencyMs : ℚ} {raw : Bool} {r : ModelResponse Value}
    (h : p.response data latencyMs raw = .ok r) : ∃ choice calls text,
      p.parse data = .ok (choice, calls, text) ∧
        p.assemble data choice calls text latencyMs raw = .ok r := by
  unfold response at h
  rcases hp : p.parse data with e | ⟨choice, calls, text⟩
  · rw [hp] at h
    dsimp only at h
    split at h <;> cases h
  · rw [hp] at h
    rcases ha : p.assemble data choice calls text latencyMs raw with e | r'
    · simp only [ha] at h
      cases h
    · simp only [ha] at h
      cases h
      exact ⟨_, _, _, rfl, ha⟩

theorem parse_choice {data choice : Value} {calls : List (ToolCall Value)} {text : String}
    (h : p.parse data = .ok (choice, calls, text)) :
    ∃ choices, data.subscript "choices" = .ok choices ∧ choices.first = .ok choice := by
  obtain ⟨choices, hchoices, h⟩ := bind_eq_ok.1 h
  obtain ⟨c, hc, h⟩ := bind_eq_ok.1 h
  obtain ⟨m, -, h⟩ := bind_eq_ok.1 h
  obtain ⟨t, -, h⟩ := bind_eq_ok.1 h
  obtain ⟨items, -, h⟩ := bind_eq_ok.1 h
  obtain ⟨calls', -, h⟩ := bind_eq_ok.1 h
  obtain ⟨c', -, h⟩ := bind_eq_ok.1 h
  obtain ⟨text', -, h⟩ := bind_eq_ok.1 h
  cases h
  exact ⟨choices, hchoices, hc⟩

/-- **Plain generation** passes the limit on. -/
theorem response_finish {data : Value} {latencyMs : ℚ} {raw : Bool} {r : ModelResponse Value}
    (hd : Reports "length" data) (h : p.response data latencyMs raw = .ok r) :
    r.finishReason = .length := by
  obtain ⟨choice, calls, text, hp, ha⟩ := response_ok h
  obtain ⟨choices, c, hchoices, hc, hr⟩ := hd
  obtain ⟨choices', hchoices', hc'⟩ := parse_choice hp
  rw [hchoices] at hchoices'
  cases hchoices'
  rw [hc] at hc'
  cases hc'
  obtain ⟨⟨d, rfl⟩, -⟩ := parse_dict hp
  rw [assemble_dict, hr] at ha
  obtain ⟨finish, hfinish, ha⟩ := bind_eq_ok.1 ha
  cases hfinish
  obtain ⟨input, -, ha⟩ := bind_eq_ok.1 ha
  obtain ⟨output, -, ha⟩ := bind_eq_ok.1 ha
  obtain ⟨usage, -, ha⟩ := bind_eq_ok.1 ha
  obtain ⟨id, -, ha⟩ := bind_eq_ok.1 ha
  obtain ⟨model, -, ha⟩ := bind_eq_ok.1 ha
  cases ha
  rfl

/-! ## Their streams -/

variable (p) in
/-- The chunks of the lines, up to `[DONE]`. -/
def chunks : List String → List Value
  | [] => []
  | line :: rest =>
    if "data: ".toList.isPrefixOf line.toList then
      if removePrefix "data: " line = "[DONE]" then []
      else match p.loads (removePrefix "data: " line) with
        | .ok chunk => chunk :: chunks rest
        | .error _ => []
    else chunks rest

/-! What a chunk says; a part that is missing says nothing. -/

def choiceOf (chunk : Value) : Value :=
  ((chunk.getD "choices" (.list [.dict []])).bind Value.first).toOption.getD (.dict [])

def reasonOf (chunk : Value) : Value :=
  ((choiceOf chunk).getD "finish_reason" .null).toOption.getD .null

def deltaOf (chunk : Value) : Value :=
  ((choiceOf chunk).getD "delta" (.dict [])).toOption.getD (.dict [])

def contentOf (chunk : Value) : String :=
  (((deltaOf chunk).getD "content" .null).toOption.bind Value.asStr?).getD ""

def deltaItems (chunk : Value) : List Value :=
  (((deltaOf chunk).getD "tool_calls" (.list [])).bind Value.iter).toOption.getD []

theorem readLines_ok {lines : List String} {s s' : StreamState}
    (h : p.readLines s lines = .ok s') : (p.chunks lines).foldlM p.addChunk s = .ok s' := by
  induction lines generalizing s with
  | nil => exact h
  | cons line rest ih =>
    unfold readLines at h
    unfold chunks
    split
    · rename_i hdata
      rw [if_pos hdata] at h
      dsimp only at h
      split
      · rename_i hdone
        rw [if_pos hdone] at h
        exact h
      · rename_i hdone
        rw [if_neg hdone] at h
        rcases hl : p.loads (removePrefix "data: " line) with text | chunk
        · rw [hl] at h
          cases h
        · rw [hl] at h
          obtain ⟨s₁, hs₁, h⟩ := bind_eq_ok.1 h
          exact bind_eq_ok.2 ⟨s₁, hs₁, ih h⟩
    · rename_i hdata
      rw [if_neg hdata] at h
      exact ih h

theorem addText_ok {parts parts' : List String} {text : Value}
    (h : p.addText parts text = .ok parts') :
    String.join parts' = String.join parts ++ text.asStr?.getD "" := by
  unfold addText at h
  split at h
  · obtain ⟨t, ht, rfl⟩ := map_eq_ok.1 h
    rw [String.join_append, elim_eq_ok.1 ht]
    simp
  · rename_i hf
    cases h
    cases text with
    | str t => simp_all [Value.truthy, Value.asStr?]
    | _ => simp [Value.asStr?]

/-- **What a chunk does** to the accumulators. -/
theorem addChunk_ok {s s' : StreamState} {chunk : Value} (h : p.addChunk s chunk = .ok s') :
    addReason s.finishReason (reasonOf chunk) = .ok s'.finishReason ∧
    String.join s'.textParts = String.join s.textParts ++ contentOf chunk ∧
    (deltaItems chunk).foldlM p.addCall s.toolParts = .ok s'.toolParts := by
  obtain ⟨responseId, -, h⟩ := bind_eq_ok.1 h
  obtain ⟨model, -, h⟩ := bind_eq_ok.1 h
  obtain ⟨u, -, h⟩ := bind_eq_ok.1 h
  obtain ⟨usage, -, h⟩ := bind_eq_ok.1 h
  obtain ⟨choices, hchoices, h⟩ := bind_eq_ok.1 h
  obtain ⟨choice, hchoice, h⟩ := bind_eq_ok.1 h
  obtain ⟨delta, hdelta, h⟩ := bind_eq_ok.1 h
  obtain ⟨text, htext, h⟩ := bind_eq_ok.1 h
  obtain ⟨textParts, hparts, h⟩ := bind_eq_ok.1 h
  obtain ⟨t, ht, h⟩ := bind_eq_ok.1 h
  obtain ⟨items, hitems, h⟩ := bind_eq_ok.1 h
  obtain ⟨toolParts, htool, h⟩ := bind_eq_ok.1 h
  obtain ⟨reason, hreason, h⟩ := bind_eq_ok.1 h
  obtain ⟨finish, hfinish, h⟩ := bind_eq_ok.1 h
  cases h
  have hc : choiceOf chunk = choice := by
    rw [choiceOf, hchoices]
    exact congrArg (fun x : Result Value => x.toOption.getD (.dict [])) hchoice
  have hd : deltaOf chunk = delta := by rw [deltaOf, hc, hdelta]; rfl
  have hr : reasonOf chunk = reason := by rw [reasonOf, hc, hreason]; rfl
  have ht' : contentOf chunk = text.asStr?.getD "" := by rw [contentOf, hd, htext]; rfl
  have hi : deltaItems chunk = items := by
    rw [deltaItems, hd, ht]
    exact congrArg (fun x : Result (List Value) => x.toOption.getD []) hitems
  exact ⟨hr ▸ hfinish, ht' ▸ addText_ok hparts, hi ▸ htool⟩

/-- An item leaves a part. -/
theorem addCall_ne {parts parts' : Dict Int CallPart} {item : Value}
    (h : p.addCall parts item = .ok parts') : parts' ≠ [] := by
  obtain ⟨i, -, h⟩ := bind_eq_ok.1 h
  obtain ⟨index, -, h⟩ := bind_eq_ok.1 h
  obtain ⟨id, -, h⟩ := bind_eq_ok.1 h
  obtain ⟨f, -, h⟩ := bind_eq_ok.1 h
  obtain ⟨n, -, h⟩ := bind_eq_ok.1 h
  obtain ⟨name, -, h⟩ := bind_eq_ok.1 h
  obtain ⟨a, -, h⟩ := bind_eq_ok.1 h
  obtain ⟨arguments, -, h⟩ := bind_eq_ok.1 h
  cases h
  intro hnil
  have hmem := Dict.mem_of_get (Dict.get_set_self parts index
    ⟨if id.truthy then id else ((Dict.get parts index).getD {}).id, name, arguments⟩)
  rw [hnil] at hmem
  cases hmem

theorem addCalls_nil {items : List Value} {parts parts' : Dict Int CallPart}
    (h : items.foldlM p.addCall parts = .ok parts') :
    parts' = [] ↔ parts = [] ∧ items = [] := by
  induction items generalizing parts with
  | nil => cases h; simp
  | cons item items ih =>
    obtain ⟨parts₁, h₁, h⟩ := bind_eq_ok.1 h
    rw [ih h]
    exact iff_of_false (fun hn => addCall_ne h₁ hn.1) (fun hn => List.cons_ne_nil _ _ hn.2)

/-- The last finish reason of the chunks. -/
def stopReason : List Value → Value
  | [] => .null
  | chunk :: rest => if (stopReason rest).truthy then stopReason rest else reasonOf chunk

theorem chunks_ok {cs : List Value} {s s' : StreamState}
    (h : cs.foldlM p.addChunk s = .ok s') :
    addReason s.finishReason (stopReason cs) = .ok s'.finishReason ∧
    String.join s'.textParts = String.join s.textParts ++ String.join (cs.map contentOf) ∧
    (s'.toolParts = [] ↔ s.toolParts = [] ∧ ∀ c ∈ cs, deltaItems c = []) := by
  induction cs generalizing s with
  | nil => cases h; exact ⟨rfl, by simp [String.join], by simp⟩
  | cons c cs ih =>
    obtain ⟨s₁, h₁, h⟩ := bind_eq_ok.1 h
    obtain ⟨hreason, htext, hcalls⟩ := ih h
    obtain ⟨hreason₁, htext₁, hcalls₁⟩ := addChunk_ok h₁
    refine ⟨?_, ?_, ?_⟩
    · unfold stopReason
      split
      · rename_i ht
        rw [addReason, if_pos ht] at hreason ⊢
        exact hreason
      · rename_i ht
        rw [addReason, if_neg ht] at hreason
        rw [hreason₁, hreason]
    · rw [htext, htext₁, List.map_cons, String.append_assoc]
      congr 1
      exact (String.join_cons ..).symm
    · rw [hcalls, addCalls_nil hcalls₁, List.forall_mem_cons, and_assoc]

theorem complete_ok {s : StreamState} {latencyMs : ℚ} {r : ModelResponse Value}
    (h : p.complete s latencyMs = .ok r) :
    (r.toolCalls = [] ↔ s.toolParts = []) ∧
    r.finishReason = (if r.toolCalls ≠ [] then .toolCalls else s.finishReason) ∧
    r.message = .text .assistant (String.join s.textParts) := by
  obtain ⟨calls, hcalls, h⟩ := bind_eq_ok.1 h
  obtain ⟨id, -, h⟩ := bind_eq_ok.1 h
  obtain ⟨model, -, h⟩ := bind_eq_ok.1 h
  cases h
  have hlen := (mapM_eq_ok.1 hcalls).length_eq
  rw [List.length_insertionSort] at hlen
  refine ⟨?_, rfl, rfl⟩
  rw [← List.length_eq_zero_iff, ← hlen, List.length_eq_zero_iff]

/-- Some chunk has an item of a tool call. -/
def HasCalls (cs : List Value) : Prop := ∃ c ∈ cs, deltaItems c ≠ []

/-- **A stream** passes the limit on, unless it has tool calls. -/
theorem stream_finish {model : Option String} {lines : List String} {latencyMs : ℚ}
    {r : ModelResponse Value} (hlimit : stopReason (p.chunks lines) = .str "length")
    (h : p.stream model (.lines lines) latencyMs = .ok r) :
    (HasCalls (p.chunks lines) → r.finishReason = .toolCalls) ∧
    (¬ HasCalls (p.chunks lines) → r.finishReason = .length) ∧
    r.message.textContent = String.join ((p.chunks lines).map contentOf) := by
  obtain ⟨s, hs, hr⟩ : ∃ s, p.readLines
      { model := .str (if model.getD "" = "" then p.defaultModel else model.getD "") } lines =
        .ok s ∧ p.complete s latencyMs = .ok r := by
    unfold stream at h
    obtain ⟨s, hs, h⟩ := bind_eq_ok.1 h
    refine ⟨s, ?_, ?_⟩
    · rcases hl : p.readLines _ lines with e | s'
      · rw [hl] at hs; cases hs
      · rw [hl] at hs; cases hs; rfl
    · rcases hc : p.complete s latencyMs with e | r'
      · rw [hc] at h; cases h
      · rw [hc] at h; cases h; rfl
  obtain ⟨hreason, htext, hparts⟩ := chunks_ok (readLines_ok hs)
  obtain ⟨hcalls, hfinish, hmessage⟩ := complete_ok hr
  rw [hlimit] at hreason
  have hlength : FinishReason.length = s.finishReason := Except.ok.inj hreason
  have hhas : HasCalls (p.chunks lines) ↔ r.toolCalls ≠ [] := by
    rw [ne_eq, hcalls, hparts, HasCalls]
    simp only [true_and, not_forall, exists_prop, ne_eq]
  rw [hfinish, ← hlength, hhas, hmessage, textContent_text, htext]
  refine ⟨fun hne => if_pos hne, fun hne => if_neg hne, ?_⟩
  simp

end OpenAICompatibleProvider

/-! ## The Messages API -/

namespace AnthropicProvider
variable {p : OpenAICompatibleProvider}

theorem finishReason_regular (calls : List (ToolCall Value)) :
    finishReason calls = .stop ∨ finishReason calls = .toolCalls := by
  unfold finishReason
  split
  · exact .inr rfl
  · exact .inl rfl

theorem response_regular {data : Value} {latencyMs : ℚ} {raw : Bool} {r : ModelResponse Value}
    (h : response p data latencyMs raw = .ok r) :
    (r.finishReason = .stop ∨ r.finishReason = .toolCalls) ∧
      text data = .ok r.message.textContent := by
  obtain ⟨t, ht, h⟩ := bind_eq_ok.1 h
  obtain ⟨items, -, h⟩ := bind_eq_ok.1 h
  obtain ⟨calls, -, h⟩ := bind_eq_ok.1 h
  obtain ⟨u, -, h⟩ := bind_eq_ok.1 h
  obtain ⟨id, -, h⟩ := bind_eq_ok.1 h
  obtain ⟨i, -, h⟩ := bind_eq_ok.1 h
  obtain ⟨o, -, h⟩ := bind_eq_ok.1 h
  obtain ⟨usage, -, h⟩ := bind_eq_ok.1 h
  obtain ⟨model, -, h⟩ := bind_eq_ok.1 h
  obtain ⟨id', -, h⟩ := bind_eq_ok.1 h
  obtain ⟨model', -, h⟩ := bind_eq_ok.1 h
  cases h
  exact ⟨finishReason_regular calls, by rw [textContent_text]; exact ht⟩

/-- The text of the lines of a stream. -/
def streamText (p : OpenAICompatibleProvider) (model : Option String) (lines : List String) :
    Result String := do
  let s ← readLines p
    { model := .str (if model.getD "" = "" then p.defaultModel else model.getD "") } lines
  Value.join s.textParts

theorem stream_regular {model : Option String} {lines : List String} {latencyMs : ℚ}
    {r : ModelResponse Value} (h : stream p model lines latencyMs = .ok r) :
    (r.finishReason = .stop ∨ r.finishReason = .toolCalls) ∧
      streamText p model lines = .ok r.message.textContent := by
  obtain ⟨s, hs, h⟩ := bind_eq_ok.1 h
  obtain ⟨parts, -, h⟩ := bind_eq_ok.1 h
  obtain ⟨calls, -, h⟩ := bind_eq_ok.1 h
  obtain ⟨t, ht, h⟩ := bind_eq_ok.1 h
  obtain ⟨id, -, h⟩ := bind_eq_ok.1 h
  obtain ⟨model', -, h⟩ := bind_eq_ok.1 h
  cases h
  refine ⟨finishReason_regular calls, bind_eq_ok.2 ⟨s, hs, ?_⟩⟩
  rw [textContent_text]
  exact ht

/-- The stop reason of a reply. -/
def Reports (reason : String) (data : Value) : Prop := ∃ d, data = .dict d ∧
  Dict.get d "stop_reason" = some (.str reason)

/-- That of a stream, in an event `message_delta`. -/
def StreamReports (p : OpenAICompatibleProvider) (reason : String) (lines : List String) : Prop :=
  ∃ line ∈ lines, ∃ d delta, "data: ".toList.isPrefixOf line.toList ∧
    p.loads (removePrefix "data: " line) = .ok (.dict d) ∧
    Dict.get d "type" = some (.str "message_delta") ∧ Dict.get d "delta" = some (.dict delta) ∧
    Dict.get delta "stop_reason" = some (.str reason)

end AnthropicProvider

/-! ## Truncated completions -/

open OpenAICompatibleProvider in
/-- **Truncated completions are rejected** by plain generation of the OpenAI-compatible
    providers, by their streams if these have no tool call, and otherwise only if the request
    asks for an object of a schema and there is no text. -/
theorem truncated_iff (p : OpenAICompatibleProvider) (s : RunState Value)
    (request : ModelRequest Value) (latencyMs : ℚ) (r : ModelResponse Value) :
    (∀ data raw, Reports "length" data → p.response data latencyMs raw = .ok r →
      Rejects s request r) ∧
    (∀ model lines, stopReason (p.chunks lines) = .str "length" →
      p.stream model (.lines lines) latencyMs = .ok r →
      (Rejects s request r ↔ (¬ HasCalls (p.chunks lines)) ∨
        Blank request (String.join ((p.chunks lines).map contentOf)))) ∧
    (∀ data raw, AnthropicProvider.Reports "max_tokens" data →
      AnthropicProvider.response p data latencyMs raw = .ok r →
      (Rejects s request r ↔ ∃ t, AnthropicProvider.text data = .ok t ∧ Blank request t)) ∧
    (∀ model lines, AnthropicProvider.StreamReports p "max_tokens" lines →
      AnthropicProvider.stream p model lines latencyMs = .ok r →
      (Rejects s request r ↔
        ∃ t, AnthropicProvider.streamText p model lines = .ok t ∧ Blank request t)) := by
  refine ⟨fun data raw hd h => rejects_of_length (response_finish hd h), fun model lines hl h => ?_,
    fun data raw _ h => ?_, fun model lines _ h => ?_⟩
  · obtain ⟨hcalls, hnone, htext⟩ := stream_finish hl h
    by_cases hhas : HasCalls (p.chunks lines)
    · rw [rejects_iff_blank (.inr (hcalls hhas)), htext]
      exact ⟨.inr, fun h => h.resolve_left (not_not.2 hhas)⟩
    · exact iff_of_true (rejects_of_length (hnone hhas)) (.inl hhas)
  · obtain ⟨hregular, htext⟩ := AnthropicProvider.response_regular h
    rw [rejects_iff_blank hregular, htext]
    exact ⟨fun hb => ⟨_, rfl, hb⟩, fun ⟨t, ht, hb⟩ => by cases ht; exact hb⟩
  · obtain ⟨hregular, htext⟩ := AnthropicProvider.stream_regular h
    rw [rejects_iff_blank hregular, htext]
    exact ⟨fun hb => ⟨_, rfl, hb⟩, fun ⟨t, ht, hb⟩ => by cases ht; exact hb⟩

namespace Cut

/-- A run that has been accepted. -/
def run : RunState Value where
  id := "r"
  request := { agent := "a", input := "hello", tenantId := "t", userId := "u" }
  sessionId := "s"

/-- A chat completion that stops at the limit. -/
def completion : Value := .dict [("choices", .list [.dict [("finish_reason", .str "length"),
  ("message", .dict [("content", .str "hel")])]])]

/-- A reply of the Messages API that does. -/
def message : Value := .dict [("stop_reason", .str "max_tokens"),
  ("content", .list [.dict [("type", .str "text"), ("text", .str "hel")]])]

def response (finishReason : FinishReason) : ModelResponse Value where
  id := "unknown"
  message := .text .assistant "hel"
  finishReason := finishReason
  model := "m"
  provider := "p"

end Cut

theorem truncated_iff_sample :
    Rejects Cut.run { messages := [] } (Cut.response .length) :=
  (truncated_iff Request.Sample.provider Cut.run { messages := [] } 0 _).1 Cut.completion false
    ⟨_, _, rfl, rfl, rfl⟩ rfl

/-- The text of a message that is cut off is taken for the whole answer. -/
theorem truncated_accepted : ¬ ∀ (p : OpenAICompatibleProvider) (s : RunState Value)
    (request : ModelRequest Value) (latencyMs : ℚ) (r : ModelResponse Value) (data : Value)
    (raw : Bool), AnthropicProvider.Reports "max_tokens" data →
    AnthropicProvider.response p data latencyMs raw = .ok r → Rejects s request r := by
  intro h
  obtain ⟨f, hf, -⟩ := h Request.Sample.provider Cut.run { messages := [] } 0
    (Cut.response .stop) Cut.message false ⟨_, rfl, rfl⟩ rfl
  cases hf

end TracciaRuntime
