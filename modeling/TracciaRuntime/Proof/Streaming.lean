/-
  Traccia Runtime formalization — streams agree with plain generation.

  * `addChunk_readable`: what the adapter makes of a chunk that it can read, and
    `readable_of_ok`: which chunks it can read;
  * `Gathered`: the parts of the tool calls after some pieces (`addCall_gathered`);
  * `streamedCalls_eq`: the tool calls of the parts are those of the reply;
  * `response_completion`: the parts of an accepted reply;
  * `streaming_iff`: when the stream of a reply agrees with the reply;
  * `streaming_lost`: a stream that ends with the usage.
-/
import TracciaRuntime.Proof.Truncation

namespace TracciaRuntime

open Py

namespace OpenAICompatibleProvider
variable {p : OpenAICompatibleProvider}

/-- The adapter can read the chunk: its list of choices is not empty, and `tool_calls` is not
    `null`. -/
def Readable (v : Value) : Prop := ∃ d, v = .dict d ∧ Dict.get d "choices" ≠ some (.list []) ∧
  ∀ choice delta rest, Dict.get d "choices" = some (.list (.dict choice :: rest)) →
    Dict.get choice "delta" = some (.dict delta) → Dict.get delta "tool_calls" ≠ some .null

/-- The usage reports no cached tokens. -/
def Uncached (p : OpenAICompatibleProvider) (usage : Value) : Prop :=
  usage.truthy → ∃ u details, usage = .dict u ∧
    ((Dict.get u "prompt_tokens_details").getD (.dict [])).orElse (.dict []) = .dict details ∧
    p.validateInt ((Dict.get details "cached_tokens").getD (.int 0)) = some 0

/-- The stream ends with a response that says what the other one says. -/
def Agrees (r : ModelResponse Value) (streamed : Except Exn (ModelResponse Value)) : Prop :=
  ∃ r', streamed = .ok r' ∧ r'.message = r.message ∧ r'.toolCalls = r.toolCalls ∧
    r'.finishReason = r.finishReason ∧ r'.usage = r.usage

/-! ## Lines -/

theorem readLines_sends {lines : List String} {vs : List Value} (h : Sends p lines vs)
    (s : StreamState) : p.readLines s lines = vs.foldlM p.addChunk s := by
  induction h generalizing s with
  | nil => rfl
  | done => rfl
  | skip hline _ ih =>
    rw [OpenAICompatibleProvider.readLines, if_neg (by rw [hline]; nofun)]
    exact ih s
  | @data text v rest vs hdone hloads _ ih =>
    have hprefix : "data: ".toList.isPrefixOf ("data: " ++ text).toList = true := by
      rw [String.toList_append, List.isPrefixOf_iff_prefix]
      exact List.prefix_append _ _
    rw [OpenAICompatibleProvider.readLines, if_pos hprefix]
    simp only [removePrefix_append, hdone, if_false, hloads, List.foldlM_cons]
    rcases p.addChunk s v with e | s₁
    · rfl
    · exact ih s₁

/-! ## Pieces of tool calls -/

/-- The id of the pieces: the last one that is not empty. -/
def pieceId (xs : List CallDelta) : Value :=
  xs.foldl (fun id x => if (nullable x.id).truthy then nullable x.id else id) .null

/-- What the pieces of a tool call leave in `tool_parts`. -/
def part (xs : List CallDelta) : CallPart where
  id := pieceId xs
  name := String.join (xs.map fun x => x.name.getD "")
  arguments := .str (String.join (xs.map fun x => x.arguments.getD ""))

/-- The parts after the pieces, in whatever order these came. -/
structure Gathered (parts : Dict Int CallPart) (xs : List CallDelta) : Prop where
  nodup : (Dict.keys parts).Nodup
  get : ∀ i : Int, Dict.get parts i =
    if xs.any fun x => x.index = i then some (part (xs.filter fun x => x.index = i)) else none

theorem Gathered.nil : Gathered [] [] := ⟨List.nodup_nil, fun _ => rfl⟩

theorem part_concat (xs : List CallDelta) (x : CallDelta) : part (xs ++ [x]) =
    { id := if (nullable x.id).truthy then nullable x.id else (part xs).id
      name := (part xs).name ++ x.name.getD ""
      arguments := .str (String.join (xs.map fun x => x.arguments.getD "") ++
        x.arguments.getD "") } := by
  simp [part, pieceId]

theorem nullable_orElse (x : Option String) :
    (nullable x).orElse (.str "") = .str (x.getD "") := by
  cases x with
  | none => rfl
  | some s =>
    by_cases hs : s = ""
    · subst hs; rfl
    · simp [nullable, Value.orElse, Value.truthy, hs]

theorem addArguments_nullable (s : String) (x : Option String) :
    p.addArguments (.str s) (nullable x) = .ok (.str (s ++ x.getD "")) := by
  cases x with
  | none => simp [nullable, addArguments, Value.truthy]
  | some t =>
    by_cases ht : t = ""
    · subst ht; simp [nullable, addArguments, Value.truthy]
    · simp [nullable, addArguments, Value.truthy, ht, p.str_str]

theorem Gathered.current {parts : Dict Int CallPart} {xs : List CallDelta}
    (h : Gathered parts xs) (i : Int) :
    (Dict.get parts i).getD {} = part (xs.filter fun x => x.index = i) := by
  rw [h.get]
  split
  · rfl
  · rename_i hany
    have hnil : xs.filter (fun x => (x.index : Int) = i) = [] := by
      refine List.filter_eq_nil_iff.2 fun x hx hi => hany ?_
      exact List.any_eq_true.2 ⟨x, hx, hi⟩
    rw [hnil]
    rfl

/-- **A piece goes to the part of its index.** -/
theorem addCall_gathered {parts : Dict Int CallPart} {xs : List CallDelta} {x : CallDelta}
    {v : Value} (h : Gathered parts xs) (hx : x.Is v) :
    ∃ parts', p.addCall parts v = .ok parts' ∧ Gathered parts' (xs ++ [x]) := by
  obtain ⟨hindex, hid, hfunction, hname, harguments⟩ := hx
  rename_i d f
  have hfunction : (field d "function").orElse (.dict []) = .dict f := by
    rcases hfunction with hf | ⟨hf, rfl⟩
    · rw [hf, Value.orElse]
      split
      · rfl
      · rename_i ht
        cases f with
        | nil => rfl
        | cons => exact absurd rfl ht
    · rw [hf]; rfl
  have hcurrent := h.current x.index
  have hadd : p.addCall parts (.dict d) = .ok (Dict.set parts (x.index : Int)
      (part (xs.filter (fun y => (y.index : Int) = x.index) ++ [x]))) := by
    refine bind_eq_ok.2 ⟨.int x.index, ?_, bind_eq_ok.2 ⟨x.index, rfl, bind_eq_ok.2
      ⟨nullable x.id, ?_, bind_eq_ok.2 ⟨field d "function", rfl, ?_⟩⟩⟩⟩
    · rw [Value.getD_dict, hindex]; rfl
    · rw [← hid]; rfl
    · simp only [hfunction, hcurrent]
      let ys := xs.filter fun y => (y.index : Int) = x.index
      have hstr : (part ys).arguments = .str (String.join (ys.map fun y => y.arguments.getD "")) :=
        rfl
      refine bind_eq_ok.2 ⟨nullable x.name, ?_, bind_eq_ok.2 ⟨(part ys).name ++ x.name.getD "", ?_,
        bind_eq_ok.2 ⟨nullable x.arguments, ?_, bind_eq_ok.2 ⟨.str (String.join
          (ys.map fun y => y.arguments.getD "") ++ x.arguments.getD ""), ?_, ?_⟩⟩⟩⟩
      · rw [← hname]; rfl
      · rw [nullable_orElse]; rfl
      · rw [← harguments]; rfl
      · rw [hstr, addArguments_nullable]
      · rw [part_concat]; rfl
  refine ⟨_, hadd, Dict.nodup_keys_set _ _ h.nodup, fun i => ?_⟩
  rw [Dict.get_set, List.any_append, List.filter_append]
  by_cases hi : i = x.index
  · subst hi
    simp
  · have hi' : ¬ (x.index : Int) = i := fun h => hi h.symm
    simp [hi, hi', h.get i]

theorem addCalls_gathered {xs ys : List CallDelta} {vs : List Value} {parts : Dict Int CallPart}
    (h : Gathered parts xs) (hvs : List.Forall₂ CallDelta.Is ys vs) :
    ∃ parts', vs.foldlM p.addCall parts = .ok parts' ∧ Gathered parts' (xs ++ ys) := by
  induction hvs generalizing parts xs with
  | nil => exact ⟨parts, rfl, by simpa using h⟩
  | @cons y v ys vs hy _ ih =>
    obtain ⟨parts₁, h₁, hg₁⟩ := addCall_gathered (p := p) h hy
    obtain ⟨parts', h', hg'⟩ := ih hg₁
    exact ⟨parts', bind_eq_ok.2 ⟨parts₁, h₁, h'⟩, by simpa using hg'⟩

/-! ## Usage -/

/-- What `_response` makes of the usage. -/
def plainUsage (p : OpenAICompatibleProvider) (usage : Value) : Result TokenUsage := do
  let input ← usage.getD "prompt_tokens" (.int 0)
  let output ← usage.getD "completion_tokens" (.int 0)
  p.tokenUsage input output (.int 0)

theorem tokenUsage_eq {a b c : Value} {u : TokenUsage} : p.tokenUsage a b c = .ok u ↔
    ∃ n m k, p.validateInt a = some n ∧ p.validateInt b = some m ∧ p.validateInt c = some k ∧
      u = { inputTokens := n, outputTokens := m, cachedTokens := k } := by
  constructor
  · intro h
    obtain ⟨n, hn, h⟩ := bind_eq_ok.1 h
    obtain ⟨m, hm, h⟩ := bind_eq_ok.1 h
    obtain ⟨k, hk, h⟩ := bind_eq_ok.1 h
    cases h
    exact ⟨n, m, k, elim_eq_ok.1 hn, elim_eq_ok.1 hm, elim_eq_ok.1 hk, rfl⟩
  · rintro ⟨n, m, k, hn, hm, hk, rfl⟩
    exact bind_eq_ok.2 ⟨n, elim_eq_ok.2 hn, bind_eq_ok.2 ⟨m, elim_eq_ok.2 hm,
      bind_eq_ok.2 ⟨k, elim_eq_ok.2 hk, rfl⟩⟩⟩

/-- A chunk without usage leaves that of the chunks before it. -/
theorem addUsage_orElse (usage : TokenUsage) (x : Value) :
    p.addUsage usage (x.orElse (.dict [])) = if x.truthy then p.addUsage {} x else .ok usage := by
  unfold Value.orElse
  by_cases hx : x.truthy
  · simp only [hx, if_true, addUsage]
  · simp only [hx]
    rfl

/-- **The two mappings of the usage** agree on the usage without cached tokens. -/
theorem addUsage_eq_plain {x : Value} {u : TokenUsage} (hx : x.truthy)
    (hu : plainUsage p x = .ok u) : p.addUsage {} x = .ok u ↔ Uncached p x := by
  obtain ⟨input, hinput, h⟩ := bind_eq_ok.1 hu
  obtain ⟨d, rfl, rfl⟩ := Value.getD_eq_ok.1 hinput
  obtain ⟨output, houtput, h⟩ := bind_eq_ok.1 h
  cases houtput
  obtain ⟨n, m, k, hin, hout, hcached, rfl⟩ := tokenUsage_eq.1 h
  rw [p.validateInt_int] at hcached
  cases hcached
  constructor
  · intro h' _
    rw [addUsage, if_pos hx] at h'
    obtain ⟨t, ht, h'⟩ := bind_eq_ok.1 h'
    cases ht
    obtain ⟨input, hi, h'⟩ := bind_eq_ok.1 h'
    obtain ⟨output, ho, h'⟩ := bind_eq_ok.1 h'
    obtain ⟨cached, hc, h'⟩ := bind_eq_ok.1 h'
    obtain ⟨details, hdetails, rfl⟩ := Value.getD_eq_ok.1 hc
    obtain ⟨_, _, _, -, -, hk, hu'⟩ := tokenUsage_eq.1 h'
    cases hu'
    exact ⟨d, details, rfl, hdetails, hk⟩
  · intro h'
    obtain ⟨_, details, hd, hdetails, hzero⟩ := h' hx
    cases hd
    rw [addUsage, if_pos hx]
    refine bind_eq_ok.2 ⟨_, rfl, bind_eq_ok.2 ⟨_, rfl, bind_eq_ok.2 ⟨_, rfl, ?_⟩⟩⟩
    rw [hdetails]
    exact bind_eq_ok.2 ⟨_, rfl, tokenUsage_eq.2 ⟨n, m, 0, hin, hout, hzero, rfl⟩⟩

/-! ## Chunks -/

theorem addText_nullable (parts : List String) (x : Option String) :
    ∃ parts', p.addText parts (nullable x) = .ok parts' ∧
      String.join parts' = String.join parts ++ x.getD "" := by
  cases x with
  | none => exact ⟨parts, rfl, by simp⟩
  | some t =>
    by_cases ht : t = ""
    · subst ht
      exact ⟨parts, rfl, by simp⟩
    · refine ⟨parts ++ [t], ?_, by simp⟩
      simp [addText, nullable, Value.truthy, ht, validStr, Value.asStr?, Except.map]

/-- What has been said last. -/
def latest {α : Type} (said : Chunk → Bool) (x default : α) (cs : List Chunk) : α :=
  if cs.any said then x else default

theorem latest_concat {α : Type} (said : Chunk → Bool) (x default : α) (cs : List Chunk)
    (c : Chunk) : latest said x default (cs ++ [c]) =
      if said c then x else latest said x default cs := by
  unfold latest
  by_cases h : said c <;> simp [h]

/-- The accumulators after some chunks, with the finish reason and the usage that these say. -/
structure After (finish : FinishReason) (usage : TokenUsage) (cs : List Chunk) (s : StreamState) :
    Prop where
  responseId : s.responseId.asStr?.isSome
  model : s.model.asStr?.isSome
  text : String.join s.textParts = String.join (cs.map fun c => c.content.getD "")
  parts : Gathered s.toolParts (cs.flatMap Chunk.calls)
  reason : s.finishReason = latest (fun c => c.reason.truthy) finish .stop cs
  usage : s.usage = latest (fun c => c.usage.truthy) usage {} cs

theorem asStr?_getD {data : Dict String Value} {key : String} {x : Value}
    (h : Spelled data key) (hx : x.asStr?.isSome) : ((Dict.get data key).getD x).asStr?.isSome := by
  rcases hd : Dict.get data key with _ | v
  · exact hx
  · exact h v hd

/-- **A chunk that the adapter can read**, and whose finish reason and usage are accepted. -/
theorem addChunk_readable {data : Dict String Value} {finish : FinishReason} {usage : TokenUsage}
    {cs : List Chunk} {c : Chunk} {v : Value} {s : StreamState} (hs : After finish usage cs s)
    (hc : c.Is data v) (hread : Readable v) (hid : Spelled data "id")
    (hmodel : Spelled data "model")
    (hreason : c.reason.truthy → finishReason c.reason = .ok finish)
    (husage : c.usage.truthy → p.addUsage {} c.usage = .ok usage) :
    ∃ s', p.addChunk s v = .ok s' ∧ After finish usage (cs ++ [c]) s' := by
  cases hc with
  | usage _ _ hchoices =>
    obtain ⟨_, hd, hne, -⟩ := hread
    cases hd
    exact absurd hchoices hne
  | @choice d choice delta rest items hdid hdmodel hchoices hdelta hcontent hitems hcalls hr hu =>
    obtain ⟨_, hd, -, hnull⟩ := hread
    cases hd
    have hitems' : ((Dict.get delta "tool_calls").getD (.list [])).iter = .ok items := by
      rcases hitems with h | ⟨rfl, h | h⟩
      · rw [h]; rfl
      · rw [h]; rfl
      · exact absurd h (hnull choice delta rest hchoices hdelta)
    obtain ⟨parts, hparts, hg⟩ := addCalls_gathered (p := p) hs.parts hcalls
    obtain ⟨text, htext, hjoin⟩ := addText_nullable (p := p) s.textParts c.content
    have husage' : p.addUsage s.usage ((field d "usage").orElse (.dict [])) =
        .ok (latest (fun c => c.usage.truthy) usage {} (cs ++ [c])) := by
      rw [hu, addUsage_orElse, latest_concat, ← hs.usage]
      split
      · rename_i ht
        exact husage ht
      · rfl
    have hreason' : addReason s.finishReason (field choice "finish_reason") =
        .ok (latest (fun c => c.reason.truthy) finish .stop (cs ++ [c])) := by
      rw [hr, addReason, latest_concat, ← hs.reason]
      split
      · rename_i ht
        exact hreason ht
      · rfl
    refine ⟨_, bind_eq_ok.2 ⟨_, Value.getD_dict _ _ _, bind_eq_ok.2 ⟨_, Value.getD_dict _ _ _,
      bind_eq_ok.2 ⟨_, Value.getD_dict _ _ _, bind_eq_ok.2 ⟨_, husage', bind_eq_ok.2
      ⟨.list (.dict choice :: rest), ?_, bind_eq_ok.2 ⟨.dict choice, rfl, bind_eq_ok.2
      ⟨.dict delta, ?_, bind_eq_ok.2 ⟨_, Value.getD_dict _ _ _, bind_eq_ok.2 ⟨text, ?_,
      bind_eq_ok.2 ⟨_, Value.getD_dict _ _ _, bind_eq_ok.2 ⟨items, hitems', bind_eq_ok.2
      ⟨parts, hparts, bind_eq_ok.2 ⟨_, Value.getD_dict _ _ _, bind_eq_ok.2
      ⟨_, hreason', rfl⟩⟩⟩⟩⟩⟩⟩⟩⟩⟩⟩⟩⟩⟩, ?_⟩
    · rw [Value.getD_dict, hchoices]; rfl
    · rw [Value.getD_dict, hdelta]; rfl
    · exact (congrArg (p.addText s.textParts) hcontent).trans htext
    · refine ⟨?_, ?_, ?_, ?_, rfl, rfl⟩
      · rw [hdid]; exact asStr?_getD hid hs.responseId
      · rw [hdmodel]; exact asStr?_getD hmodel hs.model
      · rw [hjoin, hs.text]
        simp
      · simpa using hg

/-- What a chunk is that has been read. -/
theorem readable_of_ok {data : Dict String Value} {c : Chunk} {v : Value} {s s' : StreamState}
    (hc : c.Is data v) (h : p.addChunk s v = .ok s') :
    Readable v ∧ (c.usage.truthy → ∃ u, p.addUsage {} c.usage = .ok u) := by
  obtain ⟨d, rfl, hfield⟩ : ∃ d, v = .dict d ∧ field d "usage" = c.usage := by
    cases hc with
    | choice _ _ _ _ _ _ _ _ hu => exact ⟨_, rfl, hu⟩
    | usage _ _ _ _ _ _ hu => exact ⟨_, rfl, hu⟩
  obtain ⟨responseId, -, h⟩ := bind_eq_ok.1 h
  obtain ⟨model, -, h⟩ := bind_eq_ok.1 h
  obtain ⟨u, hu, h⟩ := bind_eq_ok.1 h
  obtain ⟨usage, husage, h⟩ := bind_eq_ok.1 h
  obtain ⟨choices, hchoices, h⟩ := bind_eq_ok.1 h
  obtain ⟨choice, hchoice, h⟩ := bind_eq_ok.1 h
  obtain ⟨delta, hdelta, h⟩ := bind_eq_ok.1 h
  obtain ⟨text, -, h⟩ := bind_eq_ok.1 h
  obtain ⟨textParts, -, h⟩ := bind_eq_ok.1 h
  obtain ⟨t, ht, h⟩ := bind_eq_ok.1 h
  obtain ⟨items, hitems, -⟩ := bind_eq_ok.1 h
  cases hu
  rw [Value.getD_dict] at hchoices
  refine ⟨⟨d, rfl, fun hnil => ?_, fun choice' delta' rest hlist hdict hnull => ?_⟩,
    fun htruthy => ?_⟩
  · rw [hnil] at hchoices
    cases hchoices
    cases hchoice
  · rw [hlist] at hchoices
    cases hchoices
    cases hchoice
    rw [Value.getD_dict, hdict] at hdelta
    cases hdelta
    rw [Option.getD_some, Value.getD_dict, hnull] at ht
    cases ht
    cases hitems
  · change p.addUsage s.usage ((field d "usage").orElse (.dict [])) = _ at husage
    rw [hfield, addUsage_orElse, if_pos htruthy] at husage
    exact ⟨usage, husage⟩

/-- **The run over the chunks.** -/
theorem readChunks {data : Dict String Value} {finish : FinishReason} {usage : TokenUsage}
    {pre cs : List Chunk} {vs : List Value} {s : StreamState}
    (hcs : List.Forall₂ (Chunk.Is data) cs vs) (hs : After finish usage pre s)
    (hread : ∀ v ∈ vs, Readable v) (hid : Spelled data "id")
    (hmodel : Spelled data "model")
    (hreason : ∀ c ∈ cs, c.reason.truthy → finishReason c.reason = .ok finish)
    (husage : ∀ c ∈ cs, c.usage.truthy → p.addUsage {} c.usage = .ok usage) :
    ∃ s', vs.foldlM p.addChunk s = .ok s' ∧ After finish usage (pre ++ cs) s' := by
  induction hcs generalizing pre s with
  | nil => exact ⟨s, rfl, by simpa using hs⟩
  | @cons c v cs vs hc _ ih =>
    rw [List.forall_mem_cons] at hread hreason husage
    obtain ⟨s₁, h₁, hs₁⟩ := addChunk_readable hs hc hread.1 hid hmodel hreason.1 husage.1
    obtain ⟨s', h', hs'⟩ := ih hs₁ hread.2 hreason.2 husage.2
    exact ⟨s', bind_eq_ok.2 ⟨s₁, h₁, h'⟩, by simpa using hs'⟩

theorem readable_of_run {data : Dict String Value} {cs : List Chunk} {vs : List Value}
    {s s' : StreamState} (hcs : List.Forall₂ (Chunk.Is data) cs vs)
    (h : vs.foldlM p.addChunk s = .ok s') :
    (∀ v ∈ vs, Readable v) ∧ ∀ c ∈ cs, c.usage.truthy → ∃ u, p.addUsage {} c.usage = .ok u := by
  induction hcs generalizing s with
  | nil => exact ⟨List.forall_mem_nil _, List.forall_mem_nil _⟩
  | cons hc _ ih =>
    obtain ⟨s₁, h₁, h⟩ := bind_eq_ok.1 h
    obtain ⟨hread, husage⟩ := readable_of_ok hc h₁
    obtain ⟨hreads, husages⟩ := ih h
    exact ⟨List.forall_mem_cons.2 ⟨hread, hreads⟩, List.forall_mem_cons.2 ⟨husage, husages⟩⟩

/-! ## The tool calls -/

theorem pieceId_eq {xs : List CallDelta} {w : Value}
    (h : ∀ x ∈ xs, (nullable x.id).truthy → nullable x.id = w) :
    pieceId xs = if ∃ x ∈ xs, (nullable x.id).truthy then w else .null := by
  induction xs using List.reverseRecOn with
  | nil => rfl
  | append_singleton xs x ih =>
    have hx := h x (by simp)
    have hxs := ih fun y hy => h y (List.mem_append_left _ hy)
    have hlast : pieceId (xs ++ [x]) =
        if (nullable x.id).truthy then nullable x.id else pieceId xs :=
      congrArg CallPart.id (part_concat xs x)
    rw [hlast, hxs]
    by_cases ht : (nullable x.id).truthy
    · rw [if_pos ht, hx ht, if_pos ⟨x, by simp, ht⟩]
    · rw [if_neg ht]
      simp [ht, or_and_right, exists_or]

theorem pieces_ne {xs : List CallDelta} {v : Value} (h : CallSplits p xs v) : xs ≠ [] := by
  cases h with
  | intro hne => exact hne

/-- A tool call of the parts is that of the reply. -/
theorem streamedCall_splits {xs : List CallDelta} {v : Value} {i : Nat}
    (h : CallSplits p xs v) {c : ToolCall Value} (hc : p.call (i, v) = .ok c) :
    p.streamedCall ((i : Int), part xs) = .ok c := by
  cases h with
  | @intro d f _ hids hid hfunction hname harguments =>
    obtain ⟨id, hid', hc⟩ := bind_eq_ok.1 hc
    cases hid'
    obtain ⟨function, hf, hc⟩ := bind_eq_ok.1 hc
    rw [Value.subscript, hfunction] at hf
    cases hf
    obtain ⟨n, hn, hc⟩ := bind_eq_ok.1 hc
    rw [Value.subscript, hname] at hn
    cases hn
    obtain ⟨name, hname', hc⟩ := bind_eq_ok.1 hc
    obtain ⟨a, ha, hc⟩ := bind_eq_ok.1 hc
    cases ha
    obtain ⟨arguments, harguments', hc⟩ := bind_eq_ok.1 hc
    have hor : ∀ y, (pieceId xs).orElse y = (field d "id").orElse y := fun y => by
      rw [pieceId_eq hids, Value.orElse, Value.orElse]
      by_cases ht : (field d "id").truthy
      · obtain ⟨x, hx, he⟩ := hid ht
        have hex : ∃ x ∈ xs, (nullable x.id).truthy := ⟨x, hx, he ▸ ht⟩
        simp only [if_pos hex, ht, if_true]
      · have hex : ¬ ∃ x ∈ xs, (nullable x.id).truthy := by
          rintro ⟨x, hx, hxt⟩
          exact ht (hids x hx hxt ▸ hxt)
        rw [if_neg hex, if_neg ht]
        rfl
    refine bind_eq_ok.2 ⟨name, hname', bind_eq_ok.2 ⟨arguments, harguments.trans harguments', ?_⟩⟩
    rw [← hc]
    exact congrArg (fun id => p.toolCall id name arguments) (hor _)

theorem Gathered.sorted {parts : Dict Int CallPart} {xs : List CallDelta} {n : Nat}
    (h : Gathered parts xs) (hlt : ∀ x ∈ xs, x.index < n) (hall : ∀ i < n, pieces xs i ≠ []) :
    parts.insertionSort (fun a b => a.1 ≤ b.1) =
      (List.range n).map fun i : Nat => ((i : Int), part (pieces xs i)) := by
  have hget : ∀ i : Nat, Dict.get parts i =
      if xs.any (fun x => x.index = i) then some (part (pieces xs i)) else none := fun i => by
    have := h.get i
    simpa only [Nat.cast_inj, pieces] using this
  have hmem : ∀ a : Int × CallPart, a ∈ parts ↔
      a ∈ (List.range n).map fun i : Nat => ((i : Int), part (pieces xs i)) := by
    rintro ⟨k, v⟩
    constructor
    · intro ha
      have hk := h.get k
      rw [Dict.get_of_mem h.nodup ha] at hk
      split at hk
      · rename_i hany
        obtain ⟨x, hx, hxk⟩ := List.any_eq_true.1 hany
        have hxk : (x.index : Int) = k := of_decide_eq_true hxk
        subst hxk
        refine List.mem_map.2 ⟨x.index, List.mem_range.2 (hlt x hx), ?_⟩
        rw [Option.some.inj hk]
        simp [pieces]
      · cases hk
    · intro ha
      obtain ⟨i, hi, he⟩ := List.mem_map.1 ha
      cases he
      refine Dict.mem_of_get ?_
      rw [hget, if_pos]
      obtain ⟨x, hx⟩ := List.exists_mem_of_ne_nil _ (hall i (List.mem_range.1 hi))
      obtain ⟨hx, hxi⟩ := List.mem_filter.1 hx
      exact List.any_eq_true.2 ⟨x, hx, hxi⟩
  have hperm : (parts.insertionSort fun a b => a.1 ≤ b.1).Perm
      ((List.range n).map fun i : Nat => ((i : Int), part (pieces xs i))) := by
    refine (List.perm_insertionSort _ parts).trans ((List.perm_ext_iff_of_nodup ?_ ?_).2 hmem)
    · exact List.Nodup.of_map _ h.nodup
    · exact List.nodup_range.map fun i j hij => by simpa using congrArg Prod.fst hij
  have hsorted : ((List.range n).map fun i : Nat => ((i : Int), part (pieces xs i))).Pairwise
      fun a b => a.1 ≤ b.1 := by
    rw [List.pairwise_map]
    exact List.pairwise_lt_range.imp fun hij => by simpa using hij.le
  refine hperm.eq_of_pairwise (fun a b ha hb hab hba => ?_) ?_ hsorted
  · have ha := Dict.get_of_mem h.nodup ((List.perm_insertionSort _ parts).mem_iff.1 ha)
    have hb := Dict.get_of_mem h.nodup ((hmem b).2 hb)
    have hk := le_antisymm hab hba
    rw [hk, hb] at ha
    exact Prod.ext hk (Option.some.inj ha).symm
  · exact List.pairwise_insertionSort _ parts

/-- **The tool calls of the parts** are those of the reply. -/
theorem streamedCalls_eq {parts : Dict Int CallPart} {xs : List CallDelta} {items : List Value}
    {calls : List (ToolCall Value)} (h : Gathered parts xs)
    (hlt : ∀ x ∈ xs, x.index < items.length)
    (hsplits : ∀ i v, items[i]? = some v → CallSplits p (pieces xs i) v)
    (hcalls : (enumerate items).mapM p.call = .ok calls) :
    p.streamedCalls parts = .ok calls := by
  have hall : ∀ i < items.length, pieces xs i ≠ [] := fun i hi =>
    pieces_ne (hsplits i _ (List.getElem?_eq_getElem hi))
  rw [streamedCalls, h.sorted hlt hall, mapM_eq_ok, List.forall₂_iff_get]
  obtain ⟨hlen, hget⟩ := List.forall₂_iff_get.1 (mapM_eq_ok.1 hcalls)
  have hlen' : (enumerate items).length = items.length := by simp [enumerate]
  refine ⟨by simpa [hlen'] using hlen, fun i h₁ h₂ => ?_⟩
  have hi : i < items.length := by simpa using h₁
  have hcall := hget i (by rwa [hlen']) h₂
  have hitem : (enumerate items).get ⟨i, by rwa [hlen']⟩ = (i, items[i]) := by simp [enumerate]
  rw [hitem] at hcall
  have := streamedCall_splits (hsplits i items[i] (List.getElem?_eq_getElem hi)) hcall
  simpa using this

/-! ## The reply and its stream -/

/-- The parts of a reply: the first choice, the items of its tool calls and its text. -/
structure Completion (data : Value) (d choice : Dict String Value) (items : List Value)
    (text : String) : Prop where
  data : data = .dict d
  first : ∃ choices, Dict.get d "choices" = some choices ∧ choices.first = .ok (.dict choice)
  message : ∃ message, messageOf choice = .dict message ∧
    (itemsOf message).iter = .ok items ∧ messageText (field message "content") = .ok text

/-- What the response of an accepted reply says. -/
structure Means (p : OpenAICompatibleProvider) (d choice : Dict String Value) (items : List Value)
    (text : String) (r : ModelResponse Value) : Prop where
  calls : (enumerate items).mapM p.call = .ok r.toolCalls
  message : r.message = .text .assistant text
  reason : finishReason (field choice "finish_reason") = .ok r.finishReason
  usage : plainUsage p (usageOf d) = .ok r.usage
  id : Spelled d "id"
  model : Spelled d "model"

/-- **An accepted reply** has its parts. -/
theorem response_completion {data : Value} {latencyMs : ℚ} {raw : Bool} {r : ModelResponse Value}
    (h : p.response data latencyMs raw = .ok r) : ∃ d choice items text,
      Completion data d choice items text ∧ Means p d choice items text r := by
  obtain ⟨choice, calls, text, hp, ha⟩ := response_ok h
  obtain ⟨⟨d, rfl⟩, choice, rfl⟩ := parse_dict hp
  obtain ⟨choices, hchoices, hp⟩ := bind_eq_ok.1 hp
  obtain ⟨c, hc, hp⟩ := bind_eq_ok.1 hp
  obtain ⟨m, hm, hp⟩ := bind_eq_ok.1 hp
  obtain ⟨t, ht, hp⟩ := bind_eq_ok.1 hp
  obtain ⟨items, hitems, hp⟩ := bind_eq_ok.1 hp
  obtain ⟨calls', hcalls, hp⟩ := bind_eq_ok.1 hp
  obtain ⟨content, hcontent, hp⟩ := bind_eq_ok.1 hp
  obtain ⟨text', htext, hp⟩ := bind_eq_ok.1 hp
  cases hp
  cases hm
  obtain ⟨message, hmessage, rfl⟩ := Value.getD_eq_ok.1 ht
  rw [hmessage] at hcontent
  cases hcontent
  rw [assemble_dict] at ha
  obtain ⟨finish, hfinish, ha⟩ := bind_eq_ok.1 ha
  obtain ⟨input, hinput, ha⟩ := bind_eq_ok.1 ha
  obtain ⟨output, houtput, ha⟩ := bind_eq_ok.1 ha
  obtain ⟨usage, husage, ha⟩ := bind_eq_ok.1 ha
  obtain ⟨hid, hmodel⟩ := modelResponse_ok.1 ⟨r, ha⟩
  obtain ⟨id, -, ha⟩ := bind_eq_ok.1 ha
  obtain ⟨model, -, ha⟩ := bind_eq_ok.1 ha
  cases ha
  have hplain : plainUsage p (usageOf d) = .ok usage :=
    bind_eq_ok.2 ⟨input, hinput, bind_eq_ok.2 ⟨output, houtput, husage⟩⟩
  exact ⟨d, choice, items, text, ⟨rfl, ⟨choices, elim_eq_ok.1 hchoices, hc⟩, message, hmessage,
    hitems, htext⟩, hcalls, rfl, hfinish, hplain, spelled_iff.1 hid, spelled_iff.1 hmodel⟩

theorem Completion.unique {data : Value} {d d' choice choice' : Dict String Value}
    {items items' : List Value} {text text' : String} (h : Completion data d choice items text)
    (h' : Completion data d' choice' items' text') :
    d = d' ∧ choice = choice' ∧ items = items' ∧ text = text' := by
  obtain ⟨rfl, ⟨choices, hchoices, hchoice⟩, message, hmessage, hitems, htext⟩ := h
  obtain ⟨hd, ⟨choices', hchoices', hchoice'⟩, message', hmessage', hitems', htext'⟩ := h'
  cases hd
  rw [hchoices] at hchoices'
  cases hchoices'
  rw [hchoice] at hchoice'
  cases hchoice'
  rw [hmessage] at hmessage'
  cases hmessage'
  rw [hitems] at hitems'
  cases hitems'
  rw [htext] at htext'
  cases htext'
  exact ⟨rfl, rfl, rfl, rfl⟩

/-- The finish reason, if some chunk says one. -/
theorem latest_reason {x : Value} {finish : FinishReason} {cs : List Chunk}
    (hx : finishReason x = .ok finish) (h : Conveyed x (cs.map Chunk.reason)) :
    latest (fun c => c.reason.truthy) finish .stop cs = finish := by
  unfold latest
  split
  · rfl
  · rename_i hany
    have hfalsy : ¬ x.truthy := fun ht => by
      obtain ⟨c, hc, hr⟩ := List.mem_map.1 (h.2 ht)
      exact hany (List.any_eq_true.2 ⟨c, hc, hr ▸ ht⟩)
    cases x with
    | str s =>
      have hs : s = "" := by simpa [Value.truthy] using hfalsy
      subst hs
      cases hx
      rfl
    | list | dict => cases hx
    | _ => cases hx; rfl

/-- The usage, if some chunk says one. -/
theorem latest_usage {x : Value} {plain usage : TokenUsage} {cs : List Chunk}
    (hplain : plainUsage p (x.orElse (.dict [])) = .ok plain)
    (h : Conveyed x (cs.map Chunk.usage)) :
    latest (fun c => c.usage.truthy) usage {} cs = plain ↔ (x.truthy → usage = plain) := by
  unfold latest
  split
  · rename_i hany
    obtain ⟨c, hc, ht⟩ := List.any_eq_true.1 hany
    have hx := h.1 _ (List.mem_map_of_mem hc) ht
    exact ⟨fun hu _ => hu, fun hu => hu (hx ▸ ht)⟩
  · rename_i hany
    have hfalsy : ¬ x.truthy := fun ht => by
      obtain ⟨c, hc, hr⟩ := List.mem_map.1 (h.2 ht)
      exact hany (List.any_eq_true.2 ⟨c, hc, hr ▸ ht⟩)
    rw [Value.orElse, if_neg hfalsy] at hplain
    obtain ⟨input, hinput, hplain⟩ := bind_eq_ok.1 hplain
    obtain ⟨output, houtput, hplain⟩ := bind_eq_ok.1 hplain
    cases hinput
    cases houtput
    obtain ⟨n, m, k, hn, hm, hk, rfl⟩ := tokenUsage_eq.1 hplain
    have hzero : p.validateInt (.int 0) = some 0 := p.validateInt_int 0
    change p.validateInt (.int 0) = _ at hn hm hk
    rw [hzero] at hn hm hk
    cases hn
    cases hm
    cases hk
    exact iff_of_true rfl fun ht => absurd ht hfalsy

theorem finishReason_toolCalls {x : Value} :
    finishReason x = .ok .toolCalls ↔ x = .str "tool_calls" := by
  constructor
  · intro h
    cases x with
    | str s =>
      by_cases hs : s = "tool_calls"
      · rw [hs]
      · exfalso
        simp only [finishReason, Value.lookup, finishMap, Dict.get, Except.map] at h
        split_ifs at h with h₁ h₂ <;> first | exact hs h₂.symm | cases h
    | list | dict => cases h
    | _ => cases h
  · rintro rfl
    rfl

section
variable {data : Value} {d choice : Dict String Value} {items : List Value} {text : String}
  {r : ModelResponse Value} {cs : List Chunk} {vs : List Value} {lines : List String}
  {model : Option String} {latencyMs : ℚ}

/-- **The stream of a reply** whose chunks can be read, and whose usage is accepted. -/
theorem stream_readable {usage : TokenUsage} (model : Option String) (latencyMs : ℚ)
    (hmeans : Means p d choice items text r)
    (hcs : List.Forall₂ (Chunk.Is d) cs vs) (hsplits : Splits p d choice text items cs)
    (hsends : Sends p lines vs) (hread : ∀ v ∈ vs, Readable v)
    (husage : (field d "usage").truthy → p.addUsage {} (field d "usage") = .ok usage) :
    ∃ r', p.stream model (.lines lines) latencyMs = .ok r' ∧ r'.message = r.message ∧
      r'.toolCalls = r.toolCalls ∧
      r'.finishReason = (if r.toolCalls ≠ [] then .toolCalls else r.finishReason) ∧
      r'.usage = latest (fun c => c.usage.truthy) usage {} cs := by
  have hstart : After r.finishReason usage []
      { model := .str (if model.getD "" = "" then p.defaultModel else model.getD "") } :=
    ⟨rfl, rfl, rfl, Gathered.nil, rfl, rfl⟩
  obtain ⟨s, hs, hafter⟩ := readChunks hcs hstart hread hmeans.id hmeans.model
    (fun c hc ht => by rw [hsplits.reason.1 _ (List.mem_map_of_mem hc) ht]; exact hmeans.reason)
    (fun c hc ht => by
      have hx := hsplits.usage.1 _ (List.mem_map_of_mem hc) ht
      rw [hx]
      exact husage (hx ▸ ht))
  rw [List.nil_append] at hafter
  have hcalls := streamedCalls_eq hafter.parts hsplits.index hsplits.calls hmeans.calls
  have hreason := hafter.reason
  rw [latest_reason hmeans.reason hsplits.reason] at hreason
  obtain ⟨r', hr'⟩ : ∃ r', p.modelResponse s.responseId (String.join s.textParts) r.toolCalls
      (if r.toolCalls ≠ [] then .toolCalls else s.finishReason) s.usage latencyMs s.model none =
        .ok r' := modelResponse_ok.2 ⟨hafter.responseId, hafter.model⟩
  have hstream : p.stream model (.lines lines) latencyMs = .ok r' := by
    rw [stream]
    refine bind_eq_ok.2 ⟨s, mapError_eq_ok.2 ?_, ?_⟩
    · rw [readLines_sends hsends, hs]
    · exact mapError_eq_ok.2 (bind_eq_ok.2 ⟨r.toolCalls, hcalls, hr'⟩)
  refine ⟨r', hstream, ?_⟩
  obtain ⟨id, -, hr'⟩ := bind_eq_ok.1 hr'
  obtain ⟨m, -, hr'⟩ := bind_eq_ok.1 hr'
  cases hr'
  refine ⟨?_, rfl, ?_, hafter.usage⟩
  · rw [hmeans.message, hafter.text, hsplits.text]
  · rw [← hreason]

/-- The stream of a reply agrees with the reply exactly if its chunks can be read, a reply with
    tool calls says so in its finish reason, and no cached tokens are reported. -/
theorem streaming_iff {latencyMs' : ℚ} {raw : Bool}
    (hr : p.response data latencyMs' raw = .ok r) (hc : Completion data d choice items text)
    (hcs : List.Forall₂ (Chunk.Is d) cs vs) (hsplits : Splits p d choice text items cs)
    (hsends : Sends p lines vs) :
    Agrees r (p.stream model (.lines lines) latencyMs) ↔ (∀ v ∈ vs, Readable v) ∧
      (items ≠ [] → field choice "finish_reason" = .str "tool_calls") ∧
      Uncached p (field d "usage") := by
  obtain ⟨_, _, _, _, hc', hmeans⟩ := response_completion hr
  obtain ⟨rfl, rfl, rfl, rfl⟩ := hc.unique hc'
  have hne : r.toolCalls ≠ [] ↔ items ≠ [] := by
    have hlen := (mapM_eq_ok.1 hmeans.calls).length_eq
    rw [enumerate, List.length_map, List.length_zipIdx] at hlen
    rw [← List.length_pos_iff, ← List.length_pos_iff, hlen]
  have hfinish : ((if r.toolCalls ≠ [] then .toolCalls else r.finishReason) = r.finishReason) ↔
      (items ≠ [] → field choice "finish_reason" = .str "tool_calls") := by
    rw [← hne, ← finishReason_toolCalls, hmeans.reason]
    split
    · rename_i hi
      exact ⟨fun h _ => congrArg Except.ok h.symm, fun h => (Except.ok.inj (h hi)).symm⟩
    · rename_i hi
      exact iff_of_true rfl fun h => absurd h hi
  constructor
  · rintro ⟨r', hr', hmessage, hcalls, hreason, husage⟩
    have hr := hr'
    rw [stream] at hr
    obtain ⟨s, hs, -⟩ := bind_eq_ok.1 hr
    have hs := mapError_eq_ok.1 hs
    rw [readLines_sends hsends] at hs
    obtain ⟨hread, husages⟩ := readable_of_run hcs hs
    have hall : (field d "usage").truthy → ∃ u, p.addUsage {} (field d "usage") = .ok u :=
      fun ht => by
        obtain ⟨c, hc, he⟩ := List.mem_map.1 (hsplits.usage.2 ht)
        rw [← he]
        exact husages c hc (he ▸ ht)
    obtain ⟨usage, hu⟩ : ∃ usage, (field d "usage").truthy →
        p.addUsage {} (field d "usage") = .ok usage := by
      by_cases ht : (field d "usage").truthy
      · obtain ⟨u, hu⟩ := hall ht
        exact ⟨u, fun _ => hu⟩
      · exact ⟨{}, fun h => absurd h ht⟩
    obtain ⟨r'', hr'', hm, hcl, hf, hus⟩ := stream_readable model latencyMs hmeans
      hcs hsplits hsends hread hu
    rw [hr'] at hr''
    cases hr''
    refine ⟨hread, hfinish.1 (hf.symm.trans hreason), fun ht => ?_⟩
    have hsame := (latest_usage hmeans.usage hsplits.usage).1 (hus.symm.trans husage) ht
    have hplain := hmeans.usage
    rw [usageOf, Value.orElse, if_pos ht] at hplain
    exact (addUsage_eq_plain ht hplain).1 (hsame ▸ hu ht) ht
  · rintro ⟨hread, hreason, huncached⟩
    have hu : (field d "usage").truthy → p.addUsage {} (field d "usage") = .ok r.usage :=
      fun ht => by
        have hplain := hmeans.usage
        rw [usageOf, Value.orElse, if_pos ht] at hplain
        exact (addUsage_eq_plain ht hplain).2 huncached
    obtain ⟨r', hr', hm, hcl, hf, hus⟩ := stream_readable model latencyMs hmeans
      hcs hsplits hsends hread hu
    exact ⟨r', hr', hm, hcl, hf.trans (hfinish.2 hreason),
      hus.trans ((latest_usage hmeans.usage hsplits.usage).2 fun _ => rfl)⟩

end

namespace Split

def usage : Dict String Value := [("prompt_tokens", .int 1), ("completion_tokens", .int 2)]

def choice : Dict String Value :=
  [("message", .dict [("content", .str "hello")]), ("finish_reason", .str "stop")]

/-- A reply with a text. -/
def data : Dict String Value := [("choices", .list [.dict choice]), ("usage", .dict usage)]

/-- A chunk with all that the reply says. -/
def whole : Dict String Value :=
  [("choices", .list [.dict [("delta", .dict [("content", .str "hello")]),
    ("finish_reason", .str "stop")]]), ("usage", .dict usage)]

/-- A chunk without the usage, which comes in a chunk of its own. -/
def most : Dict String Value :=
  [("choices", .list [.dict [("delta", .dict [("content", .str "hello")]),
    ("finish_reason", .str "stop")]])]

def rest : Dict String Value := [("choices", .list []), ("usage", .dict usage)]

def provider : OpenAICompatibleProvider where
  __ := Request.Sample.provider
  loads text := if text = "whole" then .ok (.dict whole) else if text = "most" then .ok (.dict most)
    else if text = "rest" then .ok (.dict rest) else .error "Expecting value"

def response : ModelResponse Value where
  id := "unknown"
  message := .text .assistant "hello"
  usage := { inputTokens := 1, outputTokens := 2 }
  finishReason := .stop
  model := "m"
  provider := "p"

theorem completion : Completion (.dict data) data choice [] "hello" :=
  ⟨rfl, ⟨_, rfl, rfl⟩, _, rfl, rfl, rfl⟩

end Split

theorem streaming_iff_sample : Agrees Split.response
    (Split.provider.stream none (.lines ["data: whole", "data: [DONE]"]) 0) := by
  have hwhole : Chunk.Is Split.data
      { content := some "hello", reason := .str "stop", usage := .dict Split.usage }
      (.dict Split.whole) :=
    .choice rfl rfl rfl rfl rfl (.inr ⟨rfl, .inl rfl⟩) .nil rfl rfl
  have hsplits : Splits Split.provider Split.data Split.choice "hello" []
      [{ content := some "hello", reason := .str "stop", usage := .dict Split.usage }] :=
    ⟨rfl, by simp, by simp, ⟨by simp [field, Split.choice, Dict.get], fun _ => by
      simp [field, Split.choice, Dict.get]⟩, ⟨by simp [field, Split.data, Dict.get], fun _ => by
      simp [field, Split.data, Dict.get]⟩⟩
  have hsends : Sends Split.provider ["data: whole", "data: [DONE]"] [.dict Split.whole] :=
    .data (show "whole" ≠ "[DONE]" by decide) rfl .done
  have hresponse : Split.provider.response (.dict Split.data) 0 false = .ok Split.response := rfl
  refine (streaming_iff hresponse Split.completion (.cons hwhole .nil) hsplits hsends).2
    ⟨?_, by intros; contradiction, ?_⟩
  · rw [List.forall_mem_singleton]
    refine ⟨_, rfl, by simp [Split.whole, Dict.get], fun choice delta rest hlist hdict => ?_⟩
    cases hlist
    cases hdict
    simp [Dict.get]
  · exact fun _ => ⟨_, _, rfl, rfl, rfl⟩

/-- A stream whose last chunk has the usage only. -/
theorem streaming_lost : ¬ ∀ (p : OpenAICompatibleProvider) (data : Value) (latencyMs : ℚ)
    (raw : Bool) (r : ModelResponse Value), p.response data latencyMs raw = .ok r →
    ∀ (d choice : Dict String Value) (items : List Value) (text : String),
    Completion data d choice items text →
    ∀ (cs : List Chunk) (vs : List Value), List.Forall₂ (Chunk.Is d) cs vs →
    Splits p d choice text items cs → ∀ lines : List String, Sends p lines vs →
    ∀ (model : Option String) (latencyMs' : ℚ),
    Agrees r (p.stream model (.lines lines) latencyMs') := by
  intro h
  have hmost : Chunk.Is Split.data { content := some "hello", reason := .str "stop" }
      (.dict Split.most) :=
    .choice rfl rfl rfl rfl rfl (.inr ⟨rfl, .inl rfl⟩) .nil rfl rfl
  have hrest : Chunk.Is Split.data { usage := .dict Split.usage } (.dict Split.rest) :=
    .usage rfl rfl rfl rfl rfl rfl rfl
  have hsplits : Splits Split.provider Split.data Split.choice "hello" []
      [{ content := some "hello", reason := .str "stop" }, { usage := .dict Split.usage }] :=
    ⟨rfl, by simp, by simp,
      ⟨by simp [field, Split.choice, Dict.get, Value.truthy], fun _ => by
        simp [field, Split.choice, Dict.get]⟩,
      ⟨by simp [field, Split.data, Dict.get, Value.truthy], fun _ => by
        simp [field, Split.data, Dict.get]⟩⟩
  have hsends : Sends Split.provider ["data: most", "data: rest"]
      [.dict Split.most, .dict Split.rest] :=
    .data (show "most" ≠ "[DONE]" by decide) rfl
      (.data (show "rest" ≠ "[DONE]" by decide) rfl .nil)
  obtain ⟨r', hr', -⟩ := h Split.provider (.dict Split.data) 0 false Split.response rfl _ _ _ _
    Split.completion _ _ (.cons hmost (.cons hrest .nil)) hsplits _ hsends none 0
  cases hr'

end OpenAICompatibleProvider

end TracciaRuntime
