/-
  What an approver sees of the arguments of a tool call.

  * `Everywhere`: a property of all values in a value; `Hides`: sensitive keys store no value;
  * `redact_eq_self`: the security redactor leaves a value alone exactly if it hides its secrets
    and contains no bearer token; `hides_redact`: what it returns hides them;
  * `requestApproval_uses`: what a pause for approval stores and publishes;
  * `approval_discreet_iff`: it hides all secrets and agrees with the security redactor, exactly
    if the arguments have none that the runtime's own redactor leaves in place.
-/
import TracciaRuntime.Security.Redaction
import TracciaRuntime.Proof.Charts
import TracciaRuntime.Proof.Progress

namespace Async.Prog

/-- The operations of a program that goes on with what another one returns. -/
theorem Uses.bind_ends {Op : Type} {Resp : Op → Type} {ε α β : Type} {P : Op → Prop}
    {Q : α → Prop} {p : Prog Resp ε α} {f : α → Prog Resp ε β} (hp : p.Uses P) (he : p.Ends Q)
    (hf : ∀ a, Q a → (f a).Uses P) : (p >>= f).Uses P := by
  induction p with
  | pure a => exact hf a he
  | raise e => trivial
  | await b o k ih => exact ⟨hp.1, fun r => ih r (hp.2 r) (he r)⟩

end Async.Prog

namespace TracciaRuntime

open Py Text Async

/-! ## Values in a value -/

section
variable {P : Value → Prop} {v : Value}

/-- Every value in the value has the property. -/
def Everywhere (P : Value → Prop) (v : Value) : Prop := ∀ n x, Within v n x → P x

theorem Everywhere.self (h : Everywhere P v) : P v := h 0 v .self

theorem everywhere_leaf (hl : ∀ l, v ≠ .list l) (hd : ∀ d, v ≠ .dict d) : Everywhere P v ↔ P v := by
  refine ⟨Everywhere.self, fun h n x hx => ?_⟩
  cases hx with
  | self => exact h
  | item => exact absurd rfl (hl _)
  | member => exact absurd rfl (hd _)

theorem everywhere_list {l : List Value} :
    Everywhere P (.list l) ↔ P (.list l) ∧ ∀ x ∈ l, Everywhere P x := by
  constructor
  · exact fun h => ⟨h.self, fun x hx n y hy => h (n + 1) y (.item hx hy)⟩
  · rintro ⟨hself, hall⟩ n y hy
    cases hy with
    | self => exact hself
    | item hx hy => exact hall _ hx _ _ hy

theorem everywhere_dict {d : List (String × Value)} :
    Everywhere P (.dict d) ↔ P (.dict d) ∧ ∀ i ∈ d, Everywhere P i.2 := by
  constructor
  · exact fun h => ⟨h.self, fun i hi n y hy => h (n + 1) y (.member hi hy)⟩
  · rintro ⟨hself, hall⟩ n y hy
    cases hy with
    | self => exact hself
    | member hi hy => exact hall _ hi _ _ hy

end

namespace Redaction

/-! ## Secrets -/

/-- The sensitive keys of a mapping store no value. -/
def Veils (v : Value) : Prop :=
  ∀ d, v = .dict d → ∀ i ∈ d, lower i.1 ∈ sensitiveKeys → i.2 = redacted

/-- **No secret**: nothing is stored under a sensitive key, at any depth. -/
def Hides (v : Value) : Prop := Everywhere Veils v

/-- A text with a bearer token. -/
def Bears (s : String) : Prop := bearer.Occurs none s.toList

/-- No secret, and no bearer token in a text. -/
def Clean (v : Value) : Prop := Everywhere (fun x => Veils x ∧ ∀ s, x = .str s → ¬Bears s) v

/-! ## Bearer tokens -/

/-- A match: the word, spaces, and a token. -/
theorem mem_ends_bearer {p q : Pos} (h : q ∈ bearer.ends p) : ∃ b sp tok t,
    b.length = 6 ∧ (∀ c ∈ sp, isSpace c = true) ∧ sp ≠ [] ∧ (∀ c ∈ tok, isTokenChar c = true) ∧
      tok ≠ [] ∧ p.Reads (b ++ (sp ++ (tok ++ t))) q := by
  unfold bearer Regex.plus Regex.star at h
  simp only [Regex.mem_ends_seq, Regex.mem_ends_foldedWord, Regex.mem_ends_rep_char] at h
  obtain ⟨m₁, ⟨b, hb, hfold⟩, m₂, ⟨sp, hsp, hspace, hlen, -⟩, m₃, ⟨tok, htok, htoken, hlen', -⟩,
    t, ht, -⟩ := h
  refine ⟨b, sp, tok, t, ?_, hspace, List.ne_nil_of_length_pos hlen, htoken,
    List.ne_nil_of_length_pos hlen', hb.trans (hsp.trans (htok.trans ht))⟩
  rw [← List.length_map (f := Regex.fold), hfold]
  rfl

/-- The replacement is no match. -/
theorem bearer_ne {b sp tok t u : List Char} (hb : b.length = 6)
    (hspace : ∀ c ∈ sp, isSpace c = true) (hsp : sp ≠ []) (htoken : ∀ c ∈ tok, isTokenChar c = true)
    (htok : tok ≠ []) : "Bearer [REDACTED]".toList ++ u ≠ b ++ (sp ++ (tok ++ t)) := by
  intro h
  obtain ⟨-, h⟩ := List.append_inj
    (show "Bearer".toList ++ (" [REDACTED]".toList ++ u) = b ++ (sp ++ (tok ++ t)) from h) hb.symm
  obtain ⟨c, sp, rfl⟩ := List.exists_cons_of_ne_nil hsp
  obtain ⟨-, h⟩ := List.cons.inj (show ' ' :: ("[REDACTED]".toList ++ u) = c :: (sp ++ (tok ++ t)) from h)
  cases sp with
  | nil =>
    obtain ⟨d, tok, rfl⟩ := List.exists_cons_of_ne_nil htok
    obtain ⟨rfl, -⟩ := List.cons.inj
      (show '[' :: ("REDACTED]".toList ++ u) = d :: (tok ++ t) from h)
    exact absurd (htoken _ List.mem_cons_self) (by decide)
  | cons d sp =>
    obtain ⟨rfl, -⟩ := List.cons.inj
      (show '[' :: ("REDACTED]".toList ++ u) = d :: (sp ++ (tok ++ t)) from h)
    exact absurd (hspace '[' (by simp)) (by decide)

/-- **A text is left alone** exactly if it has no bearer token. -/
theorem redactText_eq_self {s : String} : redactText s = s ↔ ¬Bears s := by
  unfold redactText Bears
  rw [← Regex.sub_eq_self (g := fun _ => "Bearer [REDACTED]".toList)]
  · constructor
    · intro h
      have := congrArg String.toList h
      rwa [String.toList_ofList] at this
    · intro h
      rw [h, String.ofList_toList]
  · rintro p q w hq hw rfl
    obtain ⟨b, sp, tok, t, hb, -, hsp, -, -, hread⟩ := mem_ends_bearer hq
    have := hw.word_unique hread
    simp [hsp] at this
  · intro p q w t hq hw h
    obtain ⟨b, sp, tok, t', hb, hspace, hsp, htoken, htok, hread⟩ := mem_ends_bearer hq
    rw [hread.1, List.append_assoc, List.append_assoc, List.append_assoc] at h
    exact bearer_ne hb hspace hsp htoken htok h

/-! ## The security redactor -/

theorem redactMembers_eq (d : List (String × Value)) :
    redactMembers d = d.map fun i =>
      (i.1, if lower i.1 ∈ sensitiveKeys then redacted else redact i.2) := by
  induction d with
  | nil => rfl
  | cons i rest ih => rw [redactMembers, ih]; rfl

/-- The member is as the security redactor leaves it. -/
def Settled (key : String) (item : Value) : Prop :=
  if lower key ∈ sensitiveKeys then item = redacted else redact item = item

theorem redactMembers_eq_self {d : List (String × Value)} :
    redactMembers d = d ↔ ∀ i ∈ d, Settled i.1 i.2 := by
  rw [redactMembers_eq]
  induction d with
  | nil => simp
  | cons i rest ih =>
    rw [List.map_cons, List.cons.injEq, ih, List.forall_mem_cons]
    refine and_congr_left fun _ => ?_
    obtain ⟨key, item⟩ := i
    unfold Settled
    dsimp only
    split_ifs with h
    · exact ⟨fun he => (Prod.mk.inj he).2.symm, fun he => by rw [he]⟩
    · exact ⟨fun he => (Prod.mk.inj he).2, fun he => by rw [he]⟩

theorem clean_leaf {v : Value} (hl : ∀ l, v ≠ .list l) (hd : ∀ d, v ≠ .dict d)
    (hs : ∀ s, v ≠ .str s) : Clean v :=
  (everywhere_leaf hl hd).2 ⟨fun d h => absurd h (hd d), fun s h => absurd h (hs s)⟩

theorem clean_redacted : Clean redacted := by
  refine (everywhere_leaf (by simp [redacted]) (by simp [redacted])).2 ⟨by simp [Veils, redacted], ?_⟩
  rintro s ⟨⟩
  exact redactText_eq_self.1 (by decide +kernel)

mutual

/-- **A value is left alone** exactly if it is clean. -/
theorem redact_eq_self : (v : Value) → (redact v = v ↔ Clean v)
  | .str s => by
    rw [redact, Value.str.injEq, redactText_eq_self, Clean, everywhere_leaf (by simp) (by simp)]
    simp [Veils]
  | .list l => by
    rw [redact, Value.list.injEq, redactItems_eq_self l, Clean, everywhere_list]
    simp [Veils, Clean]
  | .dict d => by
    rw [redact, Value.dict.injEq, redactMembers_eq_self, settled_iff d, forall₂_and, Clean,
      everywhere_dict]
    simp [Veils, Clean]
  | .null => iff_of_true rfl (clean_leaf (by simp) (by simp) (by simp))
  | .bool _ => iff_of_true rfl (clean_leaf (by simp) (by simp) (by simp))
  | .int _ => iff_of_true rfl (clean_leaf (by simp) (by simp) (by simp))
  | .float _ => iff_of_true rfl (clean_leaf (by simp) (by simp) (by simp))
  | .nan => iff_of_true rfl (clean_leaf (by simp) (by simp) (by simp))
  | .infinity _ => iff_of_true rfl (clean_leaf (by simp) (by simp) (by simp))

theorem redactItems_eq_self : (l : List Value) → (redactItems l = l ↔ ∀ x ∈ l, Clean x)
  | [] => by simp [redactItems]
  | x :: rest => by
    rw [redactItems, List.cons.injEq, redact_eq_self x, redactItems_eq_self rest,
      List.forall_mem_cons]

theorem settled_iff : (d : List (String × Value)) →
    ((∀ i ∈ d, Settled i.1 i.2) ↔ ∀ i ∈ d, (lower i.1 ∈ sensitiveKeys → i.2 = redacted) ∧ Clean i.2)
  | [] => by simp
  | (key, item) :: rest => by
    rw [List.forall_mem_cons, List.forall_mem_cons, settled_iff rest]
    refine and_congr_left fun _ => ?_
    unfold Settled
    split_ifs with h
    · simp only [h, true_implies, iff_self_and]
      rintro rfl
      exact clean_redacted
    · simp [h, redact_eq_self item]

end

theorem Clean.hides {v : Value} (h : Clean v) : Hides v := fun n x hx => (h n x hx).1

mutual

/-- **What the security redactor returns hides all secrets.** -/
theorem hides_redact : (v : Value) → Hides (redact v)
  | .str s => (everywhere_leaf (by simp [redact]) (by simp [redact])).2 (by simp [Veils, redact])
  | .list l => by
    rw [redact, Hides, everywhere_list]
    exact ⟨by simp [Veils], hides_redactItems l⟩
  | .dict d => by
    rw [redact, Hides, everywhere_dict]
    exact ⟨fun d' hd' => by cases hd'; exact veils_redactMembers d, hides_redactMembers d⟩
  | .null => (clean_leaf (by simp [redact]) (by simp [redact]) (by simp [redact])).hides
  | .bool _ => (clean_leaf (by simp [redact]) (by simp [redact]) (by simp [redact])).hides
  | .int _ => (clean_leaf (by simp [redact]) (by simp [redact]) (by simp [redact])).hides
  | .float _ => (clean_leaf (by simp [redact]) (by simp [redact]) (by simp [redact])).hides
  | .nan => (clean_leaf (by simp [redact]) (by simp [redact]) (by simp [redact])).hides
  | .infinity _ => (clean_leaf (by simp [redact]) (by simp [redact]) (by simp [redact])).hides

theorem hides_redactItems : (l : List Value) → ∀ x ∈ redactItems l, Hides x
  | [] => by simp [redactItems]
  | x :: rest => by
    rw [redactItems, List.forall_mem_cons]
    exact ⟨hides_redact x, hides_redactItems rest⟩

theorem veils_redactMembers : (d : List (String × Value)) →
    ∀ i ∈ redactMembers d, lower i.1 ∈ sensitiveKeys → i.2 = redacted
  | [] => by simp [redactMembers]
  | (key, item) :: rest => by
    rw [redactMembers, List.forall_mem_cons]
    exact ⟨fun h => if_pos h, veils_redactMembers rest⟩

theorem hides_redactMembers : (d : List (String × Value)) → ∀ i ∈ redactMembers d, Hides i.2
  | [] => by simp [redactMembers]
  | (key, item) :: rest => by
    rw [redactMembers, List.forall_mem_cons]
    refine ⟨?_, hides_redactMembers rest⟩
    dsimp only
    split_ifs
    · exact clean_redacted.hides
    · exact hides_redact item

end

end Redaction

/-! ## Pauses for approval -/

section
variable {V : Type} {cfg : Config V} {s : RunState V} {agent : AgentDefinition V}
  {action : PlannedAction V} {definition : ToolDefinition V} {callId : String}
  {decision : PolicyDecision V} {P : Dict String V → Prop}

/-- The parameters that a pause shows. -/
def pausedParameters : Option (PausePayload V) → Option (Dict String V)
  | some (.approval _ _ _ _ parameters _ _ _) => some parameters
  | _ => none

/-- The parameters of a tool call that an operation stores or publishes. -/
def shown : Op V → Option (Dict String V)
  | .approvalsInsert r => some r.redactedParameters
  | .runsSave s _ => pausedParameters s.pausePayload
  | .publish e => match e.body with
    | .approvalRequired pause => pausedParameters pause
    | _ => none
  | _ => none

theorem create_ends {runId stepId tenantId proposedAction risk : String}
    {parameters : Dict String V} {expiresSeconds : Nat} :
    (ApprovalService.create runId stepId tenantId proposedAction parameters risk
      expiresSeconds).Ends fun r => r.redactedParameters = parameters :=
  Prog.Ends.after _ fun _ => Prog.Ends.after _ fun _ => Prog.Ends.after _ fun _ => Prog.Ends.pure rfl

/-- **What a pause for approval stores and publishes** are the redacted arguments. -/
theorem requestApproval_uses :
    (AgentRuntime.requestApproval cfg s agent action definition callId decision).Uses
      (fun o => ∀ parameters, shown o = some parameters → P parameters) ↔
    P (AgentRuntime.redactMapping cfg action.arguments) := by
  constructor
  · intro h
    exact ((h.2 (.ok "")).2 (.ok 0)).1 _ rfl
  · intro hP
    unfold AgentRuntime.requestApproval
    refine Prog.Uses.bind_ends ?_ create_ends fun approval happroval => ?_
    · refine Prog.Uses.bind (Prog.Uses.call nofun) fun _ => ?_
      refine Prog.Uses.bind (Prog.Uses.call nofun) fun _ => ?_
      refine Prog.Uses.bind (Prog.Uses.call ?_) fun _ => Prog.Uses.pure _
      rintro parameters ⟨⟩
      exact hP
    · have hpause : ∀ parameters, pausedParameters (some (.approval approval.id callId
          approval.proposedAction approval.sideEffectSummary approval.redactedParameters
          approval.risk approval.expiresAt ["approved", "rejected", "modified"])) =
          some parameters → P parameters := by
        rintro parameters ⟨⟩
        rw [happroval]
        exact hP
      refine Prog.Uses.bind_ends ?_ transition_ends fun s' hs' => ?_
      · refine Prog.Uses.bind (Prog.Uses.lift _) fun _ => ?_
        refine Prog.Uses.bind (Prog.Uses.call nofun) fun _ => ?_
        exact Prog.Uses.bind (Prog.Uses.call hpause) fun _ => Prog.Uses.pure _
      · obtain ⟨now, rfl⟩ := hs'
        refine Prog.Uses.bind ?_ fun _ => Prog.Uses.pure _
        refine Prog.Uses.bind (Prog.Uses.call nofun) fun _ => ?_
        exact Prog.Uses.call hpause

end

/-! ## Arguments -/

namespace Redaction

/-- What the operation shows of the arguments hides all secrets, and is what the security
    redactor makes of them. -/
def Discreet (arguments : Dict String Value) (o : Op Value) : Prop :=
  ∀ parameters, shown o = some parameters →
    Hides (.dict parameters) ∧ Value.dict parameters = redact (.dict arguments)

/-- The runtime's own redactor treats the argument as the security redactor does. -/
def Plain (key : String) (item : Value) : Prop :=
  lower key ∈ ["password", "secret", "token", "api_key", "authorization"] ∨
    if lower key ∈ sensitiveKeys then item = redacted else Clean item

theorem redactMapping_eq {cfg : Config Value} (hlib : ∀ text, cfg.lib.ofString text = .str text)
    {arguments : Dict String Value} :
    AgentRuntime.redactMapping cfg arguments = redactMembers arguments ↔
      ∀ i ∈ arguments, Plain i.1 i.2 := by
  rw [redactMembers_eq, AgentRuntime.redactMapping, List.map_inj_left]
  refine forall₂_congr fun i _ => ?_
  rw [Prod.mk.injEq, and_iff_right rfl, hlib]
  unfold Plain
  by_cases hown : lower i.1 ∈ ["password", "secret", "token", "api_key", "authorization"]
  · have hkey : lower i.1 ∈ sensitiveKeys := by
      simp only [List.mem_cons, List.not_mem_nil, or_false] at hown
      rcases hown with h | h | h | h | h <;> rw [h] <;> decide
    rw [if_pos hown, if_pos hkey]
    exact iff_of_true rfl (.inl hown)
  · rw [if_neg hown, or_iff_right hown]
    split_ifs
    · exact Iff.rfl
    · rw [eq_comm, redact_eq_self]

/-- **Approvers and subscribers see no secret**, and what the security redactor shows, exactly if
    every argument is redacted at the top or has no secret and no bearer token in it. -/
theorem approval_discreet_iff (cfg : Config Value)
    (hlib : ∀ text, cfg.lib.ofString text = .str text) (s : RunState Value)
    (agent : AgentDefinition Value) (action : PlannedAction Value)
    (definition : ToolDefinition Value) (callId : String) (decision : PolicyDecision Value) :
    (AgentRuntime.requestApproval cfg s agent action definition callId decision).Uses
      (Discreet action.arguments) ↔ ∀ i ∈ action.arguments, Plain i.1 i.2 := by
  unfold Discreet
  rw [requestApproval_uses, ← redactMapping_eq hlib, redact, Value.dict.injEq]
  refine ⟨And.right, fun h => ⟨?_, h⟩⟩
  have hhides := hides_redact (.dict action.arguments)
  rwa [redact, ← h] at hhides

/-! ### A call that waits for approval -/

/-- Library functions on decoded JSON, of which a pause for approval only makes texts. -/
def lib : Lib Value where
  str _ := ""
  dumps _ := ""
  loads _ := none
  canonical _ := ""
  size s := s.toList.length
  isNone v := v matches .null
  validate _ _ := .ok ()
  ofDict := .dict
  ofString := .str
  ofBool := .bool
  ofList := .list
  ofPayload
    | some (.value v) => v
    | _ => .null
  toModelResponse _ := none
  ofModelResponse r := .str r.message.textContent
  toToolResult _ := none
  ofToolResult r := r.value
  ofModelRequest _ := .null
  ofModelProfile p := .str p.name
  ofTokenUsage u := .int u.totalTokens
  digest s := s

def run : RunState Value :=
  { id := "run", sessionId := "session"
    request := { agent := "caller", input := "call", tenantId := "tenant", userId := "user" } }

def caller : AgentDefinition Value :=
  { name := "caller", version := "1.0.0", defaultModel := { name := "m", provider := "p", model := "m" } }

def fetch : ToolDefinition Value :=
  { name := "fetch", version := "1.0.0", description := "", inputSchema := [], outputSchema := [] }

/-- A call of the tool with these arguments. -/
def call (arguments : Dict String Value) : PlannedAction Value :=
  { id := "tool-1", type := .tool, description := "", toolName := some "fetch", arguments }

def asks : PolicyDecision Value :=
  { action := .requireApproval, reasonCode := "", reason := "" }

theorem approval_discreet_city :
    (AgentRuntime.requestApproval { lib } run caller (call [("city", .str "Paris")]) fetch "1"
      asks).Uses (Discreet [("city", .str "Paris")]) := by
  refine (approval_discreet_iff { lib } (fun _ => rfl) run caller (call [("city", .str "Paris")])
    fetch "1" asks).2 fun i hi => ?_
  obtain rfl := List.mem_singleton.1 hi
  refine .inr ?_
  rw [if_neg (by decide)]
  exact (redact_eq_self _).1 (congrArg Value.str (by decide +kernel))

/-- The password of `{"login": {"password": "x"}}` is shown to the approver. -/
theorem approval_not_always_discreet :
    ¬∀ (cfg : Config Value), (∀ text, cfg.lib.ofString text = .str text) →
      ∀ (s : RunState Value) (agent : AgentDefinition Value) (action : PlannedAction Value)
        (definition : ToolDefinition Value) (callId : String) (decision : PolicyDecision Value),
      (AgentRuntime.requestApproval cfg s agent action definition callId decision).Uses
        (Discreet action.arguments) := by
  intro h
  have hhides := (requestApproval_uses.1 (h { lib } (fun _ => rfl) run caller
    (call [("login", .dict [("password", .str "x")])]) fetch "1" asks)).1
  have hveils := hhides 1 (.dict [("password", .str "x")]) (.member List.mem_cons_self .self) _ rfl
    ("password", .str "x") List.mem_cons_self (by decide)
  exact absurd (Value.str.inj hveils) (by decide)

end Redaction

end TracciaRuntime
