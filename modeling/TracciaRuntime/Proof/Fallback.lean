/-
  Traccia Runtime formalization — the fallback on bad replies.

  * `Misshapen`: the replies on which `_response` raises something else than a `ProviderError`
    (`response_misshapen`);
  * `fallback_iff`: the router falls back on every bad reply just when none of them is one of
    these;
  * `fallback_lost`: a reply with the token usage `null`.
-/
import TracciaRuntime.Models.Chunks
import TracciaRuntime.Models.Router

namespace TracciaRuntime

open Py

namespace OpenAICompatibleProvider
variable (p : OpenAICompatibleProvider)

/-- `choice.get("message") or {}`. -/
def messageOf (choice : Dict String Value) : Value := (field choice "message").orElse (.dict [])

/-- `message.get("tool_calls") or ()`. -/
def itemsOf (message : Dict String Value) : Value :=
  (field message "tool_calls").orElse (.list [])

/-- `data.get("usage") or {}`. -/
def usageOf (data : Dict String Value) : Value := (field data "usage").orElse (.dict [])

/-- A count that is missing or an integer. -/
def Counts (usage : Dict String Value) (key : String) : Prop :=
  ∃ n, p.validateInt ((Dict.get usage key).getD (.int 0)) = some n

/-- A key that is missing or a text. -/
def Spelled (data : Dict String Value) (key : String) : Prop :=
  ∀ v, Dict.get data key = some v → v.asStr?.isSome

/-- The choice, its message or a tool call is no object, though the reply is right up to there. -/
inductive Broken (data : Value) : Prop where
  | choice {choices choice : Value} : data.subscript "choices" = .ok choices →
      choices.first = .ok choice → choice.asDict? = none → Broken data
  | message {choices : Value} {choice : Dict String Value} :
      data.subscript "choices" = .ok choices → choices.first = .ok (.dict choice) →
      (messageOf choice).asDict? = none → Broken data
  | item {choices : Value} {choice message : Dict String Value} {pre post : List (Nat × Value)}
      {x : Nat × Value} {items : List Value} {calls : List (ToolCall Value)} :
      data.subscript "choices" = .ok choices → choices.first = .ok (.dict choice) →
      messageOf choice = .dict message → (itemsOf message).iter = .ok items →
      enumerate items = pre ++ x :: post → pre.mapM p.call = .ok calls →
      x.2.asDict? = none → Broken data

/-- The finish reason is a list or an object, the usage is no object or has a count that is no
    integer, or the id or the model is no text. -/
inductive Odd (data choice : Dict String Value) : Prop where
  | reason : (field choice "finish_reason").hashable = false → Odd data choice
  | usage : (usageOf data).asDict? = none → Odd data choice
  | count {usage : Dict String Value} : usageOf data = .dict usage →
      ¬ (p.Counts usage "prompt_tokens" ∧ p.Counts usage "completion_tokens") → Odd data choice
  | name : ¬ (Spelled data "id" ∧ Spelled data "model") → Odd data choice

/-- A reply is broken, or it is odd though the choice, the text and the tool calls are right. -/
def Misshapen (data : Value) : Prop :=
  p.Broken data ∨ ∃ d choice calls text, data = .dict d ∧
    p.parse data = .ok (.dict choice, calls, text) ∧ p.Odd d choice

/-! ## The exceptions -/

section
variable {p}

theorem subscript_error {x : Value} {key : String} {e : Error} (h : x.subscript key = .error e) :
    e.type ≠ .attribute := by
  cases x with
  | dict d =>
    obtain ⟨-, rfl⟩ := elim_eq_error.1 h
    nofun
  | _ => cases h; nofun

theorem first_error {x : Value} {e : Error} (h : x.first = .error e) : e.type ≠ .attribute := by
  cases x with
  | list l =>
    obtain ⟨-, rfl⟩ := elim_eq_error.1 h
    nofun
  | str s =>
    simp only [Value.first] at h
    rcases hc : s.toList.head? with _ | c
    · rw [hc] at h; cases h; nofun
    · rw [hc] at h; cases h
  | _ => cases h; nofun

theorem iter_error {x : Value} {e : Error} (h : x.iter = .error e) : e.type ≠ .attribute := by
  cases x with
  | list | dict | str => cases h
  | _ => cases h; nofun

theorem lookup_error {α : Type} {d : Dict String α} {x : Value} {e : Error}
    (h : Value.lookup d x = .error e) : e.type = .type ∧ x.hashable = false := by
  cases x with
  | list | dict => cases h; exact ⟨rfl, rfl⟩
  | _ => cases h

/-- Only dictionaries have texts as keys. -/
theorem subscript_eq_ok {x v : Value} {key : String} (h : x.subscript key = .ok v) :
    ∃ d, x = .dict d ∧ Dict.get d key = some v := by
  cases x with
  | dict d => exact ⟨d, rfl, elim_eq_ok.1 h⟩
  | _ => cases h

theorem toolArguments_error {x : Value} {e : Error} (h : p.toolArguments x = .error e) :
    e.type ≠ .attribute := by
  have hmap : ∀ {y : Value}, y.asDict?.elim
      (.error ⟨.type, "tool arguments must decode to a JSON object"⟩) Except.ok =
      Except.error e → e.type ≠ .attribute := fun hy => by
    obtain ⟨-, rfl⟩ := elim_eq_error.1 hy
    nofun
  unfold toolArguments at h
  split at h
  · cases h
  · split at h
    · cases h
    · split at h
      · exact hmap h
      · cases h; nofun
  · exact hmap h

theorem toolCall_error {id name : Value} {arguments : Dict String Value} {e : Error}
    (h : p.toolCall id name arguments = .error e) : e.type = .value := by
  rcases bind_eq_error.1 h with h | ⟨id, -, h⟩
  · obtain ⟨-, rfl⟩ := elim_eq_error.1 h; rfl
  · rcases bind_eq_error.1 h with h | ⟨name, -, h⟩
    · obtain ⟨-, rfl⟩ := elim_eq_error.1 h; rfl
    · cases h

theorem messageText_error {x : Value} {e : Error} (h : messageText x = .error e) :
    e.type = .type := by
  cases x with
  | null | str | list => cases h
  | _ => cases h; rfl

/-- **Of the tool calls** only those that are no objects raise an `AttributeError`. -/
theorem call_error {x : Nat × Value} {e : Error} (h : p.call x = .error e) :
    e.type = .attribute ↔ x.2.asDict? = none := by
  rcases bind_eq_error.1 h with h | ⟨id, hid, h⟩
  · obtain ⟨ht, hd⟩ := Value.getD_error h
    exact iff_of_true ht hd
  · obtain ⟨d, hd, -⟩ := Value.getD_eq_ok.1 hid
    refine iff_of_false ?_ (by rw [hd]; nofun)
    rcases bind_eq_error.1 h with h | ⟨function, hf, h⟩
    · exact subscript_error h
    rcases bind_eq_error.1 h with h | ⟨n, hn, h⟩
    · exact subscript_error h
    rcases bind_eq_error.1 h with h | ⟨name, -, h⟩
    · rcases hl : Value.lookup p.runtimeToolNames n with e' | found
      · rw [runtimeToolName, hl] at h
        cases h
        rw [(lookup_error hl).1]
        nofun
      · rw [runtimeToolName, hl] at h
        cases h
    rcases bind_eq_error.1 h with h | ⟨a, -, h⟩
    · -- a value with the key "name" is a dictionary
      obtain ⟨f, rfl, -⟩ := subscript_eq_ok hn
      cases h
    rcases bind_eq_error.1 h with h | ⟨arguments, -, h⟩
    · exact toolArguments_error h
    · rw [toolCall_error h]
      nofun

/-! ## The replies -/

variable {data : Value} {e : Error}

theorem toExn_ne {m : String} {k : ErrorKind} {r : Bool} : toExn e ≠ .provider m k r := by
  unfold toExn
  split <;> nofun

theorem parse_dict {x : Value × List (ToolCall Value) × String} (h : p.parse data = .ok x) :
    (∃ d, data = .dict d) ∧ ∃ c, x.1 = .dict c := by
  obtain ⟨choices, hc, h⟩ := bind_eq_ok.1 h
  obtain ⟨choice, -, h⟩ := bind_eq_ok.1 h
  obtain ⟨m, hm, h⟩ := bind_eq_ok.1 h
  obtain ⟨t, -, h⟩ := bind_eq_ok.1 h
  obtain ⟨items, -, h⟩ := bind_eq_ok.1 h
  obtain ⟨calls, -, h⟩ := bind_eq_ok.1 h
  obtain ⟨c, -, h⟩ := bind_eq_ok.1 h
  obtain ⟨text, -, h⟩ := bind_eq_ok.1 h
  cases h
  obtain ⟨d, rfl, -⟩ := subscript_eq_ok hc
  obtain ⟨c, rfl, -⟩ := Value.getD_eq_ok.1 hm
  exact ⟨⟨d, rfl⟩, c, rfl⟩

/-- The block raises an `AttributeError` on broken replies only. -/
theorem broken_of_parse (h : p.parse data = .error e) (he : e.type = .attribute) :
    p.Broken data := by
  rcases bind_eq_error.1 h with h | ⟨choices, hchoices, h⟩
  · exact absurd he (subscript_error h)
  rcases bind_eq_error.1 h with h | ⟨choice, hchoice, h⟩
  · exact absurd he (first_error h)
  rcases bind_eq_error.1 h with h | ⟨m, hm, h⟩
  · exact .choice hchoices hchoice (Value.getD_error h).2
  obtain ⟨d, rfl, rfl⟩ := Value.getD_eq_ok.1 hm
  rcases bind_eq_error.1 h with h | ⟨t, ht, h⟩
  · exact .message hchoices hchoice (Value.getD_error h).2
  obtain ⟨message, hmessage, rfl⟩ := Value.getD_eq_ok.1 ht
  rcases bind_eq_error.1 h with h | ⟨items, hitems, h⟩
  · exact absurd he (iter_error h)
  rcases bind_eq_error.1 h with h | ⟨calls, hcalls, h⟩
  · obtain ⟨pre, x, post, r, hl, hpre, hx⟩ := mapM_eq_error.1 h
    exact .item hchoices hchoice hmessage hitems hl hpre ((call_error hx).1 he)
  rcases bind_eq_error.1 h with h | ⟨content, hcontent, h⟩
  · rw [hmessage] at h
    cases h
  rcases bind_eq_error.1 h with h | ⟨text, htext, h⟩
  · rw [messageText_error h] at he
    cases he
  · cases h

/-- It raises one on every broken reply. -/
theorem Broken.parse (h : p.Broken data) : ∃ e, p.parse data = .error e ∧ e.type = .attribute := by
  cases h with
  | @choice choices choice hchoices hchoice hd =>
    obtain ⟨e, hg, he⟩ := Value.getD_none "message" .null hd
    refine ⟨e, bind_eq_error.2 (.inr ⟨_, hchoices, bind_eq_error.2 (.inr ⟨_, hchoice, ?_⟩)⟩), he⟩
    exact bind_eq_error.2 (.inl hg)
  | @message choices choice hchoices hchoice hd =>
    obtain ⟨e, hg, he⟩ := Value.getD_none "tool_calls" .null hd
    refine ⟨e, bind_eq_error.2 (.inr ⟨_, hchoices, bind_eq_error.2 (.inr ⟨_, hchoice, ?_⟩)⟩), he⟩
    exact bind_eq_error.2 (.inr ⟨_, Value.getD_dict _ _ _, bind_eq_error.2 (.inl hg)⟩)
  | @item choices choice message pre post x items calls hchoices hchoice hm hitems hl hpre hx =>
    obtain ⟨e, hg, he⟩ := Value.getD_none "id" .null hx
    have hcall : p.call x = .error e := bind_eq_error.2 (.inl hg)
    refine ⟨e, bind_eq_error.2 (.inr ⟨_, hchoices, bind_eq_error.2 (.inr ⟨_, hchoice, ?_⟩)⟩), he⟩
    refine bind_eq_error.2 (.inr ⟨_, Value.getD_dict _ _ _, bind_eq_error.2 (.inr
      ⟨field message "tool_calls", ?_, bind_eq_error.2 (.inr ⟨items, hitems, ?_⟩)⟩)⟩)
    · exact (congrArg (fun m : Value => m.getD "tool_calls" .null) hm).trans (Value.getD_dict _ _ _)
    · exact bind_eq_error.2 (.inl (mapM_eq_error.2 ⟨pre, x, post, calls, hl, hpre, hcall⟩))

section
variable {d choice : Dict String Value} {calls : List (ToolCall Value)} {text : String}
  {latencyMs : ℚ} {raw : Bool}

theorem finishReason_ok {x : Value} : (∃ r, finishReason x = .ok r) ↔ x.hashable := by
  cases x with
  | list | dict => exact iff_of_false (fun ⟨_, h⟩ => by cases h) nofun
  | _ => exact iff_of_true ⟨_, rfl⟩ rfl

theorem tokenUsage_ok {a b : Value} : (∃ u, p.tokenUsage a b (.int 0) = .ok u) ↔
    (∃ n, p.validateInt a = some n) ∧ ∃ n, p.validateInt b = some n := by
  constructor
  · rintro ⟨u, h⟩
    obtain ⟨n, hn, h⟩ := bind_eq_ok.1 h
    obtain ⟨m, hm, -⟩ := bind_eq_ok.1 h
    exact ⟨⟨n, elim_eq_ok.1 hn⟩, m, elim_eq_ok.1 hm⟩
  · rintro ⟨⟨n, hn⟩, m, hm⟩
    exact ⟨_, bind_eq_ok.2 ⟨n, elim_eq_ok.2 hn, bind_eq_ok.2 ⟨m, elim_eq_ok.2 hm,
      bind_eq_ok.2 ⟨0, elim_eq_ok.2 (p.validateInt_int 0), rfl⟩⟩⟩⟩

theorem modelResponse_ok {id model : Value} {finish : FinishReason} {usage : TokenUsage}
    {metadata : Option (Dict String Value)} :
    (∃ r, p.modelResponse id text calls finish usage latencyMs model metadata = .ok r) ↔
      id.asStr?.isSome ∧ model.asStr?.isSome := by
  simp only [Option.isSome_iff_exists]
  constructor
  · rintro ⟨r, h⟩
    obtain ⟨s, hs, h⟩ := bind_eq_ok.1 h
    obtain ⟨t, ht, -⟩ := bind_eq_ok.1 h
    exact ⟨⟨s, elim_eq_ok.1 hs⟩, t, elim_eq_ok.1 ht⟩
  · rintro ⟨⟨s, hs⟩, t, ht⟩
    exact ⟨_, bind_eq_ok.2 ⟨s, elim_eq_ok.2 hs, bind_eq_ok.2 ⟨t, elim_eq_ok.2 ht, rfl⟩⟩⟩

theorem spelled_iff {key default : String} :
    ((Dict.get d key).getD (.str default)).asStr?.isSome ↔ Spelled d key := by
  unfold Spelled
  rcases Dict.get d key with _ | v
  · exact iff_of_true rfl nofun
  · simp

/-- The rest of `_response` as it is on objects. -/
theorem assemble_dict : p.assemble (.dict d) (.dict choice) calls text latencyMs raw = (do
    let finish ← finishReason (field choice "finish_reason")
    let input ← (usageOf d).getD "prompt_tokens" (.int 0)
    let output ← (usageOf d).getD "completion_tokens" (.int 0)
    let usage ← p.tokenUsage input output (.int 0)
    p.modelResponse ((Dict.get d "id").getD (.str "unknown")) text calls finish usage latencyMs
      ((Dict.get d "model").getD (.str p.defaultModel)) (if raw then some d else none)) := rfl

/-- **What follows the block** returns on all but the odd replies. -/
theorem assemble_ok : (∃ r, p.assemble (.dict d) (.dict choice) calls text latencyMs raw = .ok r) ↔
    ¬ p.Odd d choice := by
  rw [assemble_dict]
  constructor
  · rintro ⟨r, h⟩ hodd
    obtain ⟨finish, hfinish, h⟩ := bind_eq_ok.1 h
    obtain ⟨input, hinput, h⟩ := bind_eq_ok.1 h
    obtain ⟨output, houtput, h⟩ := bind_eq_ok.1 h
    obtain ⟨usage, husage, hresponse⟩ := bind_eq_ok.1 h
    obtain ⟨hid, hmodel⟩ := modelResponse_ok.1 ⟨r, hresponse⟩
    obtain ⟨u, hu, rfl⟩ := Value.getD_eq_ok.1 hinput
    rw [hu] at houtput
    cases houtput
    cases hodd with
    | reason hr => rw [finishReason_ok.1 ⟨_, hfinish⟩] at hr; cases hr
    | usage hd => rw [hu] at hd; cases hd
    | count hu' hc =>
      rw [hu] at hu'
      cases hu'
      exact hc (tokenUsage_ok.1 ⟨_, husage⟩)
    | name hn => exact hn ⟨spelled_iff.1 hid, spelled_iff.1 hmodel⟩
  · intro hodd
    obtain ⟨finish, hfinish⟩ := finishReason_ok.2 (Bool.eq_true_of_not_eq_false fun h =>
      hodd (.reason h))
    rcases hu : (usageOf d).asDict? with _ | u
    · exact absurd (.usage hu) hodd
    have hu := Value.asDict?_eq_some.1 hu
    obtain ⟨usage, husage⟩ := tokenUsage_ok.2 (not_not.1 fun hc => hodd (.count hu hc))
    obtain ⟨hid, hmodel⟩ := not_not.1 fun hn => hodd (.name hn)
    obtain ⟨r, hr⟩ := (modelResponse_ok (p := p)).2
      ⟨spelled_iff.2 hid, spelled_iff.2 hmodel⟩
    refine ⟨r, bind_eq_ok.2 ⟨finish, hfinish, ?_⟩⟩
    rw [hu]
    exact bind_eq_ok.2 ⟨_, Value.getD_dict _ _ _, bind_eq_ok.2 ⟨_, Value.getD_dict _ _ _,
      bind_eq_ok.2 ⟨usage, husage, hr⟩⟩⟩

end

/-- **The exceptions of `_response`** that are no `ProviderError`. -/
theorem response_misshapen {latencyMs : ℚ} {raw : Bool} :
    (∃ x, p.response data latencyMs raw = .error x ∧ ∀ m k r, x ≠ .provider m k r) ↔
      p.Misshapen data := by
  unfold response Misshapen
  rcases hp : p.parse data with e | ⟨choice, calls, text⟩
  · have hbroken : p.Broken data ↔ e.type = .attribute := by
      refine ⟨fun h => ?_, broken_of_parse hp⟩
      obtain ⟨e', he', ht⟩ := h.parse
      rw [hp] at he'
      cases he'
      exact ht
    simp only [hbroken, reduceCtorEq, false_and, and_false, exists_false, or_false]
    split
    · rename_i ht
      exact iff_of_true ⟨_, rfl, fun m k r => toExn_ne⟩ ht
    · rename_i ht
      refine iff_of_false ?_ ht
      rintro ⟨x, hx, hne⟩
      cases hx
      exact hne _ _ _ rfl
  · obtain ⟨⟨d, rfl⟩, c, hc⟩ := parse_dict hp
    obtain rfl : choice = .dict c := hc
    have hbroken : ¬ p.Broken (.dict d) := fun h => by
      obtain ⟨e, he, -⟩ := h.parse
      rw [hp] at he
      cases he
    have hodd : (¬ ∃ r, p.assemble (.dict d) (.dict c) calls text latencyMs raw = .ok r) ↔
        p.Odd d c := assemble_ok.not_left
    constructor
    · rintro ⟨x, hx, -⟩
      refine .inr ⟨d, c, calls, text, rfl, rfl, hodd.1 ?_⟩
      rintro ⟨r, hr⟩
      simp only [hr] at hx
      cases hx
    · rintro (h | ⟨_, _, _, _, hd, hok, h⟩)
      · exact absurd h hbroken
      · cases hd
        cases hok
        rcases hr : p.assemble (.dict d) (.dict c) calls text latencyMs raw with e | r
        · exact ⟨toExn e, by simp only [hr]; rfl, fun m k r => toExn_ne⟩
        · exact absurd ⟨r, hr⟩ (hodd.2 h)

end

/-- The requests that raise something else than a `ProviderError`: a body that cannot be decoded,
    or a success whose body is no JSON or is misshapen. -/
def Unhandled : Reply → Prop
  | .timeout | .transportError => False
  | .decodingError => True
  | .response status body =>
    isError status = false ∧ match body with
      | .ok data => p.Misshapen data
      | .error _ => True

/-- The exceptions of `generate`. -/
theorem generate_unhandled (reply : Reply) (latencyMs : ℚ) (raw : Bool) :
    (∃ x, p.generate reply latencyMs raw = .error x ∧ ∀ m k r, x ≠ .provider m k r) ↔
      p.Unhandled reply := by
  cases reply with
  | timeout | transportError =>
    refine iff_of_false ?_ id
    rintro ⟨x, hx, hne⟩
    cases hx
    exact hne _ _ _ rfl
  | decodingError => exact iff_of_true ⟨_, rfl, by simp⟩ trivial
  | response status body =>
    simp only [generate, Unhandled]
    rcases hs : isError status with _ | _
    · rcases body with text | data
      · exact iff_of_true ⟨_, rfl, by simp⟩ ⟨rfl, trivial⟩
      · simp only [Bool.false_eq_true, if_false, true_and]
        exact response_misshapen
    · refine iff_of_false ?_ (by simp)
      rintro ⟨x, hx, hne⟩
      cases hx
      exact hne _ _ _ rfl

end OpenAICompatibleProvider

/-! ## The router -/

/-- A request to a candidate, with the adapter of its provider and how the request ends. -/
structure Request where
  candidate : Candidate
  provider : OpenAICompatibleProvider
  reply : OpenAICompatibleProvider.Reply
  latencyMs : ℚ

namespace Request

/-- The outcome for a request for plain generation. -/
def outcome (raw : Bool) (x : Request) : Candidate × Except Exn (ModelResponse Value) :=
  (x.candidate, x.provider.generate x.reply x.latencyMs raw)

/-- The reply is well formed: the adapter has a response. -/
def WellFormed (raw : Bool) (x : Request) : Prop := ∃ r, (x.outcome raw).2 = .ok r

/-- Of every request up to the first one whose reply is well formed. -/
def UpTo (raw : Bool) (P : Request → Prop) (l : List Request) : Prop :=
  ∀ pre x post, l = pre ++ x :: post → (∀ y ∈ pre, ¬ y.WellFormed raw) → P x

/-- The router returns the response of the first candidate whose reply is well formed, and
    raises a `ProviderError` if there is none (with no candidate at all it is a
    `CapabilityError`). -/
structure FallsBack (raw : Bool) (l : List Request)
    (result : Except Exn (ModelResponse Value)) : Prop where
  returns : UpTo raw (fun x => ∀ r, (x.outcome raw).2 = .ok r →
    result = .ok (x.candidate.priced r)) l
  raises : l ≠ [] → (∀ x ∈ l, ¬ x.WellFormed raw) → ∃ m k r, result = .error (.provider m k r)
  only : ∀ m k r, result = .error (.provider m k r) → ∀ x ∈ l, ¬ x.WellFormed raw

section
variable {raw : Bool} {P : Request → Prop} {x : Request} {l : List Request}

theorem upTo_nil : UpTo raw P [] := fun _ _ _ h =>
  absurd h.symm (List.append_ne_nil_of_right_ne_nil _ (List.cons_ne_nil _ _))

theorem upTo_cons : UpTo raw P (x :: l) ↔ P x ∧ (¬ x.WellFormed raw → UpTo raw P l) := by
  constructor
  · intro h
    refine ⟨h [] x l rfl nofun, fun hx pre y post hl hpre => ?_⟩
    refine h (x :: pre) y post (congrArg (x :: ·) hl) fun z hz => ?_
    rcases List.mem_cons.1 hz with rfl | hz
    · exact hx
    · exact hpre z hz
  · rintro ⟨hx, h⟩ pre y post hl hpre
    cases pre with
    | nil => cases hl; exact hx
    | cons z pre =>
      cases hl
      exact h (hpre x List.mem_cons_self) pre y post rfl fun z hz =>
        hpre z (List.mem_cons_of_mem _ hz)

/-- A list with a reply that is well formed has a first one. -/
theorem exists_first (h : ¬ ∀ x ∈ l, ¬ x.WellFormed raw) (hP : UpTo raw P l) :
    ∃ x, x.WellFormed raw ∧ P x := by
  induction l with
  | nil => exact absurd nofun h
  | cons x l ih =>
    obtain ⟨hx, hl⟩ := upTo_cons.1 hP
    by_cases hw : x.WellFormed raw
    · exact ⟨x, hw, hx⟩
    · refine ih (fun hall => h fun y hy => ?_) (hl hw)
      rcases List.mem_cons.1 hy with rfl | hy
      · exact hw
      · exact hall y hy

/-- Nothing but a reply that is well formed makes the router return. -/
theorem FallsBack.of_ok {r : ModelResponse Value} (hx : (x.outcome raw).2 = .ok r) :
    FallsBack raw (x :: l) (.ok (x.candidate.priced r)) where
  returns := upTo_cons.2 ⟨fun r' hr' => by rw [hx] at hr'; cases hr'; rfl,
    fun hw => absurd ⟨r, hx⟩ hw⟩
  raises _ h := absurd ⟨r, hx⟩ (h x List.mem_cons_self)
  only _ _ _ h := by cases h

/-- An exception that is no `ProviderError` ends the loop. -/
theorem FallsBack.not_other {e : Exn} (he : ∀ m k r, e ≠ .provider m k r) :
    ¬ FallsBack raw (x :: l) (.error e) := by
  intro h
  by_cases hall : ∀ y ∈ x :: l, ¬ y.WellFormed raw
  · obtain ⟨m, k, r, hr⟩ := h.raises (List.cons_ne_nil _ _) hall
    cases hr
    exact he m k r rfl
  · obtain ⟨y, ⟨r, hr⟩, hy⟩ := exists_first hall h.returns
    have := hy r hr
    cases this

/-- A request that fails with a `ProviderError` is passed over. -/
theorem FallsBack.cons_iff {m : String} {k : ErrorKind} {r : Bool}
    (hx : (x.outcome raw).2 = .error (.provider m k r))
    {result : Except Exn (ModelResponse Value)}
    (hempty : l = [] → ∃ m k r, result = .error (.provider m k r)) :
    FallsBack raw (x :: l) result ↔ FallsBack raw l result := by
  have hw : ¬ x.WellFormed raw := fun ⟨r', hr'⟩ => by rw [hx] at hr'; cases hr'
  have hall : (∀ y ∈ x :: l, ¬ y.WellFormed raw) ↔ ∀ y ∈ l, ¬ y.WellFormed raw := by
    rw [List.forall_mem_cons]
    exact and_iff_right hw
  constructor
  · intro h
    exact ⟨(upTo_cons.1 h.returns).2 hw, fun _ hl => h.raises (List.cons_ne_nil _ _) (hall.2 hl),
      fun m k r hr => hall.1 (h.only m k r hr)⟩
  · intro h
    refine ⟨upTo_cons.2 ⟨fun r' hr' => ?_, fun _ => h.returns⟩, fun _ hl => ?_,
      fun m k r hr => hall.2 (h.only m k r hr)⟩
    · rw [hx] at hr'; cases hr'
    · by_cases hne : l = []
      · exact hempty hne
      · exact h.raises hne (hall.1 hl)

/-- **The loop falls back** just when no request up to the first one that is well formed is
    unhandled. -/
theorem fallBack_iff (f : Failures) :
    FallsBack raw l (ModelRouter.fallBack f (l.map (outcome raw))) ↔
      UpTo raw (fun x => ¬ x.provider.Unhandled x.reply) l := by
  induction l generalizing f with
  | nil => exact iff_of_true ⟨upTo_nil, fun h => absurd rfl h, fun _ _ _ _ => nofun⟩ upTo_nil
  | cons x l ih =>
    have hgen := x.provider.generate_unhandled x.reply x.latencyMs raw
    have hout : x.outcome raw = (x.candidate, x.provider.generate x.reply x.latencyMs raw) := rfl
    rw [upTo_cons, List.map_cons, ← hgen, hout]
    rcases hx : x.provider.generate x.reply x.latencyMs raw with e | r
    · by_cases he : ∃ m k r, e = .provider m k r
      · obtain ⟨m, k, r, rfl⟩ := he
        have hw : ¬ x.WellFormed raw := fun ⟨r', hr'⟩ => by
          rw [show (x.outcome raw).2 = _ from hx] at hr'
          cases hr'
        rw [FallsBack.cons_iff hx]
        · rw [ModelRouter.fallBack, ih]
          refine ⟨fun h => ⟨?_, fun _ => h⟩, fun h => h.2 hw⟩
          rintro ⟨_, hy, hne⟩
          cases hy
          exact hne _ _ _ rfl
        · rintro rfl
          exact ⟨_, _, _, rfl⟩
      · have he : ∀ m k r, e ≠ .provider m k r := fun m k r h => he ⟨m, k, r, h⟩
        have hstop : ModelRouter.fallBack f ((x.candidate, .error e) :: l.map (outcome raw)) =
            .error e := by
          cases e with
          | provider m k r => exact absurd rfl (he m k r)
          | _ => rfl
        rw [hstop]
        exact iff_of_false (FallsBack.not_other he) fun h => h.1 ⟨e, rfl, he⟩
    · refine iff_of_true (FallsBack.of_ok hx) ⟨?_, fun hw => absurd ⟨r, hx⟩ hw⟩
      rintro ⟨_, hy, -⟩
      cases hy

end

namespace Sample

def provider : OpenAICompatibleProvider where
  providerId := "p"
  defaultModel := "m"
  loads _ := .error "Expecting value"
  validateInt x := match x with
    | .int n => some n
    | _ => none
  validateInt_int _ := rfl
  validationError model := s!"1 validation error for {model}"
  str x := x.asStr?.getD ""
  str_str _ := rfl
  detail _ := ""

/-- A success with a text and this token usage. -/
def request (usage : Value) : Request where
  candidate := ⟨"p", "m", 0, 0⟩
  provider := provider
  reply := .response 200 (.ok (.dict [
    ("choices", .list [.dict [("message", .dict [("content", .str "hello")])]]),
    ("usage", usage)]))
  latencyMs := 0

end Sample

end Request

end TracciaRuntime
