/-
  Redaction over structures.

  * `Content.follow`: what a path leads to in a payload; `follow_redact`: a redaction changes the texts
    that the walk visits, and nothing else;
  * `complete_iff`: the result is complete exactly if no text that the walk does not visit
    matches, and nothing is left of the others;
  * `redaction_complete_iff`: the secrets and the personal identifiers.
-/
import TracciaRuntime.Proof.Secrets
import Mathlib.Order.BooleanAlgebra.Basic

namespace TracciaRuntime

open Py Text

variable {N L : Type}

namespace Content

/-! ## Paths -/

/-- A step into a payload. -/
inductive Step where
  | key (i : Nat)
  | value (i : Nat)
  | item (i : Nat)
  | element (i : Nat)
  | field (i : Nat)
  | extra (i : Nat)

/-- The walk goes into the values of mappings, the items of sequences and the declared fields. -/
def Step.visited : Step → Bool
  | value _ | item _ | field _ => true
  | key _ | element _ | extra _ => false

def child : Content N → Step → Option (Content N)
  | mapping items, .key i => items[i]?.map (·.1)
  | mapping items, .value i => items[i]?.map (·.2)
  | sequence _ items, .item i => items[i]?
  | set elements, .element i => elements[i]?
  | model fields _, .field i => fields[i]?.map (·.2)
  | model _ extra, .extra i => extra[i]?.map (·.2)
  | _, _ => none

/-- What a path leads to. -/
def follow (v : Content N) : List Step → Option (Content N)
  | [] => some v
  | st :: path => (v.child st).bind (·.follow path)

/-- The text is reached by a path. -/
def Reaches (v : Content N) (s : String) : Prop := ∃ path, v.follow path = some (.text s)

/-- The text is reached by a path on which the walk goes. -/
def Visits (v : Content N) (s : String) : Prop :=
  ∃ path, v.follow path = some (.text s) ∧ path.all Step.visited = true

/-- The text is reached by a path on which the walk does not go: it is in a key of a mapping, in a
    set, or in a field that is not declared. -/
def Passes (v : Content N) (s : String) : Prop :=
  ∃ path, v.follow path = some (.text s) ∧ path.all Step.visited = false

/-! ## What a redaction changes -/

section
variable [SemilatticeSup L] [OrderBot L] [DecidableEq L] {f : String → String × L} {v : Content N}

theorem redactAll_fst {items : List (Content N)} :
    (redactAll f items).1 = items.map fun x => (redact f x).1 := by
  induction items with
  | nil => rfl
  | cons x items ih => rw [redactAll, List.map_cons, ← ih]

theorem redactItems_fst {items : List (Content N × Content N)} :
    (redactItems f items).1 = items.map fun i => (i.1, (redact f i.2).1) := by
  induction items with
  | nil => rfl
  | cons i items ih => rw [redactItems, List.map_cons, ← ih]

theorem redactFields_fst {fields : List (String × Content N)} :
    (redactFields f fields).1 = fields.map fun i => (i.1, (redact f i.2).1) := by
  induction fields with
  | nil => rfl
  | cons i fields ih => rw [redactFields, List.map_cons, ← ih]

theorem redactAll_snd {items : List (Content N)} :
    (redactAll f items).2 = ⊥ ↔ ∀ x ∈ items, (redact f x).2 = ⊥ := by
  induction items with
  | nil => simp [redactAll]
  | cons x items ih => rw [redactAll, sup_eq_bot_iff, ih, List.forall_mem_cons]

theorem redactItems_snd {items : List (Content N × Content N)} :
    (redactItems f items).2 = ⊥ ↔ ∀ i ∈ items, (redact f i.2).2 = ⊥ := by
  induction items with
  | nil => simp [redactItems]
  | cons i items ih => rw [redactItems, sup_eq_bot_iff, ih, List.forall_mem_cons]

theorem redactFields_snd {fields : List (String × Content N)} :
    (redactFields f fields).2 = ⊥ ↔ ∀ i ∈ fields, (redact f i.2).2 = ⊥ := by
  induction fields with
  | nil => simp [redactFields]
  | cons i fields ih => rw [redactFields, sup_eq_bot_iff, ih, List.forall_mem_cons]

/-- If nothing is noted, the payload is returned as it is. -/
theorem redact_of_bot (hf : ∀ s, (f s).2 = ⊥ → (f s).1 = s) (h : (v.redact f).2 = ⊥) :
    (v.redact f).1 = v := by
  cases v with
  | text s =>
    rw [redact] at h ⊢
    exact congrArg text (hf s h)
  | scalar n => rfl
  | set elements => rfl
  | mapping items =>
    rw [redact] at h ⊢
    split_ifs at h ⊢ with hnoted
    · exact absurd h hnoted
    · rfl
  | sequence kind items =>
    rw [redact] at h ⊢
    split_ifs at h ⊢ with hnoted
    · exact absurd h hnoted
    · rfl
  | model fields extra =>
    rw [redact] at h ⊢
    split_ifs at h ⊢ with hnoted
    · exact absurd h hnoted
    · rfl

/-- A text of the result comes from a text. -/
theorem redact_eq_text {s : String} (h : (v.redact f).1 = text s) :
    ∃ s', v = text s' ∧ (f s').1 = s := by
  cases v with
  | text s' =>
    rw [redact] at h
    exact ⟨s', rfl, text.inj h⟩
  | scalar n => cases h
  | set elements => cases h
  | mapping items =>
    rw [redact] at h
    split_ifs at h
  | sequence kind items =>
    rw [redact] at h
    split_ifs at h
  | model fields extra =>
    rw [redact] at h
    split_ifs at h

/-- **One step** into the result leads to the redacted child, if the walk takes it. -/
theorem child_redact (hf : ∀ s, (f s).2 = ⊥ → (f s).1 = s) {st : Step} :
    (v.redact f).1.child st =
      (v.child st).map fun x => if st.visited then (x.redact f).1 else x := by
  cases v with
  | text s => cases st <;> rfl
  | scalar n => cases st <;> rfl
  | set elements => cases st <;> simp [redact, child, Step.visited]
  | mapping items =>
    by_cases h : (redactItems f items).2 = ⊥
    · have hself : ∀ i ∈ items, (redact f i.2).1 = i.2 :=
        fun i hi => redact_of_bot hf (redactItems_snd.1 h i hi)
      rw [redact, if_neg (not_not.2 h)]
      cases st with
      | value i =>
        simp only [child, Step.visited, if_true, Option.map_map]
        exact Option.map_congr fun x hx => (hself x (List.mem_of_getElem? hx)).symm
      | _ => simp [child, Step.visited, Function.comp_def]
    · rw [redact, if_pos h, redactItems_fst]
      cases st <;> simp [child, Step.visited] <;> rfl
  | sequence kind items =>
    by_cases h : (redactAll f items).2 = ⊥
    · have hself : ∀ i ∈ items, (redact f i).1 = i :=
        fun i hi => redact_of_bot hf (redactAll_snd.1 h i hi)
      rw [redact, if_neg (not_not.2 h)]
      cases st with
      | item i =>
        simp only [child, Step.visited, if_true]
        refine Option.map_id'.symm.trans (Option.map_congr fun x hx => ?_)
        exact (hself x (List.mem_of_getElem? hx)).symm
      | _ => simp [child, Step.visited]
    · rw [redact, if_pos h, redactAll_fst]
      cases st <;> simp [child, Step.visited]
  | model fields extra =>
    by_cases h : (redactFields f fields).2 = ⊥
    · have hself : ∀ i ∈ fields, (redact f i.2).1 = i.2 :=
        fun i hi => redact_of_bot hf (redactFields_snd.1 h i hi)
      rw [redact, if_neg (not_not.2 h)]
      cases st with
      | field i =>
        simp only [child, Step.visited, if_true, Option.map_map]
        exact Option.map_congr fun x hx => (hself x (List.mem_of_getElem? hx)).symm
      | _ => simp [child, Step.visited, Function.comp_def]
    · rw [redact, if_pos h, redactFields_fst]
      cases st <;> simp [child, Step.visited] <;> rfl

/-- **A path** into the result leads to what it led to, redacted if the walk takes it. -/
theorem follow_redact (hf : ∀ s, (f s).2 = ⊥ → (f s).1 = s) {path : List Step} :
    (v.redact f).1.follow path =
      (v.follow path).map fun x => if path.all Step.visited then (x.redact f).1 else x := by
  induction path generalizing v with
  | nil => rfl
  | cons st path ih =>
    rw [follow, follow, child_redact hf, List.all_cons]
    cases hchild : v.child st with
    | none => rfl
    | some x =>
      cases hst : st.visited with
      | true => simpa using ih
      | false => simp

theorem Visits.of_child {st : Step} {x : Content N} {s : String} (hst : st.visited = true)
    (hx : v.child st = some x) (h : x.Visits s) : v.Visits s := by
  obtain ⟨path, hpath, hall⟩ := h
  refine ⟨st :: path, ?_, by rw [List.all_cons, hst, hall]; rfl⟩
  rw [follow, hx]
  exact hpath

mutual

/-- **Nothing is noted** of a payload if nothing is noted of its texts. -/
theorem redact_snd : ∀ v : Content N, (∀ s, v.Visits s → (f s).2 = ⊥) → (v.redact f).2 = ⊥
  | .text s, h => h s ⟨[], rfl, rfl⟩
  | .scalar _, _ => rfl
  | .set _, _ => rfl
  | .mapping items, h => by
    have hall : (redactItems f items).2 = ⊥ := redactItems_snd.2 <|
      items_snd items fun i hi s hs => by
        obtain ⟨n, hn⟩ := List.getElem?_of_mem hi
        exact h s (@Visits.of_child _ _ (.value n) _ _ rfl (by rw [child, hn]; rfl) hs)
    rw [redact, if_neg (not_not.2 hall)]
  | .sequence kind items, h => by
    have hall : (redactAll f items).2 = ⊥ := redactAll_snd.2 <|
      all_snd items fun x hx s hs => by
        obtain ⟨n, hn⟩ := List.getElem?_of_mem hx
        exact h s (@Visits.of_child _ _ (.item n) _ _ rfl (by rw [child, hn]) hs)
    rw [redact, if_neg (not_not.2 hall)]
  | .model fields extra, h => by
    have hall : (redactFields f fields).2 = ⊥ := redactFields_snd.2 <|
      fields_snd fields fun i hi s hs => by
        obtain ⟨n, hn⟩ := List.getElem?_of_mem hi
        exact h s (@Visits.of_child _ _ (.field n) _ _ rfl (by rw [child, hn]; rfl) hs)
    rw [redact, if_neg (not_not.2 hall)]

theorem items_snd : ∀ items : List (Content N × Content N),
    (∀ i ∈ items, ∀ s, i.2.Visits s → (f s).2 = ⊥) → ∀ i ∈ items, (i.2.redact f).2 = ⊥
  | [], _ => by simp
  | (key, item) :: rest, h => by
    rw [List.forall_mem_cons] at h ⊢
    exact ⟨redact_snd item h.1, items_snd rest h.2⟩

theorem all_snd : ∀ items : List (Content N),
    (∀ x ∈ items, ∀ s, x.Visits s → (f s).2 = ⊥) → ∀ x ∈ items, (x.redact f).2 = ⊥
  | [], _ => by simp
  | item :: rest, h => by
    rw [List.forall_mem_cons] at h ⊢
    exact ⟨redact_snd item h.1, all_snd rest h.2⟩

theorem fields_snd : ∀ fields : List (String × Content N),
    (∀ i ∈ fields, ∀ s, i.2.Visits s → (f s).2 = ⊥) → ∀ i ∈ fields, (i.2.redact f).2 = ⊥
  | [], _ => by simp
  | (name, value) :: rest, h => by
    rw [List.forall_mem_cons] at h ⊢
    exact ⟨redact_snd value h.1, fields_snd rest h.2⟩

end

/-! ## Complete redactions -/

/-- No text of the result matches, and what reaches no match is unchanged. -/
def Complete (M : String → Prop) (v result : Content N) : Prop :=
  (∀ s, result.Reaches s → ¬M s) ∧
    ∀ path x, v.follow path = some x → (∀ s, x.Reaches s → ¬M s) → result.follow path = some x

/-- **A redaction is complete** exactly if no text matches that the walk passes by, and nothing is
    left of those that it visits. -/
theorem complete_iff {M : String → Prop} (hf : ∀ s, (f s).2 = ⊥ → (f s).1 = s)
    (hM : ∀ s, ¬M s → (f s).2 = ⊥) :
    Complete M v (v.redact f).1 ↔ (∀ s, v.Passes s → ¬M s) ∧ ∀ s, v.Visits s → ¬M (f s).1 := by
  constructor
  · rintro ⟨hclear, -⟩
    refine ⟨fun s ⟨path, hpath, hall⟩ => hclear s ⟨path, ?_⟩,
      fun s ⟨path, hpath, hall⟩ => hclear _ ⟨path, ?_⟩⟩
    · rw [follow_redact hf, hpath, hall]
      rfl
    · rw [follow_redact hf, hpath, hall]
      rfl
  · rintro ⟨hpasses, hvisits⟩
    refine ⟨fun s ⟨path, hpath⟩ => ?_, fun path x hpath hx => ?_⟩
    · rw [follow_redact hf, Option.map_eq_some_iff] at hpath
      obtain ⟨x, hx, heq⟩ := hpath
      split_ifs at heq with hall
      · obtain ⟨s', rfl, rfl⟩ := redact_eq_text heq
        exact hvisits s' ⟨path, hx, hall⟩
      · exact hpasses s ⟨path, by rw [hx, heq], by simpa using hall⟩
    · rw [follow_redact hf, hpath, Option.map_some]
      split_ifs
      · rw [redact_of_bot hf (redact_snd x fun s ⟨path, hpath, _⟩ => hM s (hx s ⟨path, hpath⟩))]
      · rfl

end

end Content

/-! ## The policies -/

open Content

namespace SecretRedactionPolicy

/-- The text matches the pattern. -/
def Tells (s : String) : Prop := pattern.Occurs none s.toList

theorem redactText_snd {s : String} : (redactText s).2 = ⊥ ↔ ¬Tells s := by
  rw [Tells, ← Regex.subn_eq_zero pattern_proper (f := fun m => hide (group m) m)]
  simp [redactText]

theorem redactText_fst {s : String} (h : (redactText s).2 = ⊥) : (redactText s).1 = s := by
  rw [redactText_snd, Tells] at h
  simp only [redactText, Regex.subn]
  rw [Regex.sub_of_not_occurs h, String.ofList_toList]

/-- What is left of a payload after the decision. -/
theorem after_evaluate {v : Content N} : (evaluate v).after v = (v.redact redactText).1 := by
  unfold evaluate
  by_cases h : (v.redact redactText).2 = true
  · rw [if_pos h]
    rfl
  · rw [if_neg h]
    exact (redact_of_bot (fun s => redactText_fst) (Bool.eq_false_of_not_eq_true h)).symm

theorem evaluate_complete_iff {v : Content N} :
    Content.Complete Tells v ((evaluate v).after v) ↔ ∀ s, v.Passes s → ¬Tells s := by
  rw [after_evaluate, complete_iff (fun s => redactText_fst) (fun s => redactText_snd.2)]
  exact and_iff_left fun s _ => redactText_clear

end SecretRedactionPolicy

namespace PIIRedactionPolicy
variable {u : Unicode}

theorem proper_of_mem {i : String × Regex × String} (hi : i ∈ patterns u) : i.2.1.Proper := by
  simp only [patterns, List.mem_cons, List.not_mem_nil, or_false] at hi
  rcases hi with rfl | rfl | rfl
  · exact email_proper
  · exact phone_delimited.proper
  · exact aadhaar_delimited.proper

section
variable {ps : List (String × Regex × String)} {s : String} {labels : Finset String}

/-- Patterns that do not match change nothing. -/
theorem foldl_of_not_occurs (hp : ∀ i ∈ ps, i.2.1.Proper)
    (h : ∀ i ∈ ps, ¬i.2.1.Occurs none s.toList) :
    ps.foldl redactPattern (s, labels) = (s, labels) := by
  induction ps with
  | nil => rfl
  | cons i ps ih =>
    rw [List.forall_mem_cons] at hp h
    rw [List.foldl_cons, redactPattern, (Regex.subn_eq_zero hp.1).2 h.1, Regex.subn,
      Regex.sub_of_not_occurs h.1, String.ofList_toList]
    exact ih hp.2 h.2

/-- A pattern that matches is noted. -/
theorem foldl_eq_empty (hp : ∀ i ∈ ps, i.2.1.Proper)
    (h : (ps.foldl redactPattern (s, labels)).2 = ∅) :
    labels = ∅ ∧ ∀ i ∈ ps, ¬i.2.1.Occurs none s.toList := by
  induction ps generalizing s labels with
  | nil => exact ⟨h, by simp⟩
  | cons i ps ih =>
    rw [List.forall_mem_cons] at hp ⊢
    rw [List.foldl_cons] at h
    obtain ⟨hlabels, hrest⟩ := ih hp.2 h
    dsimp only at hlabels
    split_ifs at hlabels with hcount
    · exact absurd hlabels (Finset.insert_ne_empty _ _)
    · have hnone := (Regex.subn_eq_zero hp.1).1 (not_not.1 hcount)
      simp only [Regex.subn, Regex.sub_of_not_occurs hnone, String.ofList_toList] at hrest
      exact ⟨hlabels, hnone, hrest⟩

end

/-- The text matches a pattern. -/
def Tells (u : Unicode) (s : String) : Prop := Identifies u s.toList

theorem redactText_of_not_tells {s : String} (h : ¬Tells u s) : redactText u s = (s, ∅) :=
  foldl_of_not_occurs (fun _ => proper_of_mem) fun i hi hocc => h ⟨i, hi, hocc⟩

theorem not_tells {s : String} (h : (redactText u s).2 = ⊥) : ¬Tells u s := by
  rintro ⟨i, hi, hocc⟩
  exact (foldl_eq_empty (fun _ => proper_of_mem) h).2 i hi hocc

theorem redactText_fst_eq {s : String} (h : (redactText u s).2 = ⊥) : (redactText u s).1 = s := by
  rw [redactText_of_not_tells (not_tells h)]

/-- What is left of a payload after the decision. -/
theorem after_evaluate {v : Content N} : (evaluate u v).after v = (v.redact (redactText u)).1 := by
  unfold evaluate
  by_cases h : (v.redact (redactText u)).2 = ∅
  · rw [if_neg (not_not.2 h)]
    exact (redact_of_bot (fun s => redactText_fst_eq) h).symm
  · rw [if_pos h]
    rfl

theorem evaluate_complete_iff {v : Content N} :
    Content.Complete (Tells u) v ((evaluate u v).after v) ↔
      (∀ s, v.Passes s → ¬Tells u s) ∧ ∀ s, v.Visits s → ¬Trailed u s.toList := by
  rw [after_evaluate, complete_iff (fun s => redactText_fst_eq)
    (fun s h => congrArg Prod.snd (redactText_of_not_tells h))]
  simp only [Tells, redactText_identifies]

end PIIRedactionPolicy

/-- **The policies redact completely** exactly if no text matches that is in a key of a mapping, in
    a set or in a field that is not declared, and, for personal identifiers, no other text has an
    address right behind an address. -/
theorem redaction_complete_iff (u : Unicode) (v : Content N) :
    (Content.Complete SecretRedactionPolicy.Tells v ((SecretRedactionPolicy.evaluate v).after v) ↔
      ∀ s, v.Passes s → ¬SecretRedactionPolicy.Tells s) ∧
    (Content.Complete (PIIRedactionPolicy.Tells u) v ((PIIRedactionPolicy.evaluate u v).after v) ↔
      (∀ s, v.Passes s → ¬PIIRedactionPolicy.Tells u s) ∧
        ∀ s, v.Visits s → ¬PIIRedactionPolicy.Trailed u s.toList) :=
  ⟨SecretRedactionPolicy.evaluate_complete_iff, PIIRedactionPolicy.evaluate_complete_iff⟩

/-- A secret in a key is kept, and so is a secret in a set and an address behind an address. -/
theorem redaction_not_always_complete :
    (¬∀ (N : Type) (v : Content N),
      Content.Complete SecretRedactionPolicy.Tells v ((SecretRedactionPolicy.evaluate v).after v)) ∧
    ¬∀ (u : Unicode) (N : Type) (v : Content N),
      Content.Complete (PIIRedactionPolicy.Tells u) v ((PIIRedactionPolicy.evaluate u v).after v) := by
  constructor
  · intro h
    have := SecretRedactionPolicy.evaluate_complete_iff.1
      (h Nat (.mapping [(.text "token=abcdefgh", .scalar 1)])) "token=abcdefgh"
      ⟨[.key 0], rfl, rfl⟩
    exact this (Regex.search_iff.1 (by decide +kernel))
  · intro h
    have := (PIIRedactionPolicy.evaluate_complete_iff.1
      (h .ascii Nat (.text "a@b.c+x@d.e"))).2 "a@b.c+x@d.e" ⟨[], rfl, rfl⟩
    refine this ⟨"+x@d.e".toList, by decide +kernel, "+x@d.e".toList, by decide +kernel,
      "+x@d.e".toList, by decide +kernel, Regex.search_iff.1 (by decide +kernel)⟩

end TracciaRuntime
