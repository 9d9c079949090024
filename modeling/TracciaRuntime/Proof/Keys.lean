/-
  The storage keys of tenants.

  The keys are joins of ids that may contain the separators themselves.

  * `runKey_injective_iff`, `memoryKey_injective_iff`, `pointId_injective_iff`: when
    two tenants can have no key in common;
  * `scans_memoryKey`: when the scan for runs finds a memory key;
  * `storage_keys_separate`: all of them together.
-/
import TracciaRuntime.Persistence.Redis
import TracciaRuntime.Retrieval.Ingestion
import TracciaRuntime.Text.Separators

namespace TracciaRuntime

open Py Text

variable {V : Type}

/-! ## Texts as lists of letters -/

/-- The tenant id `t'`, followed by `:`, begins with `t` and the separator. -/
def GoesOn (sep t t' : String) : Prop := (t ++ sep).toList <+: (t' ++ ":").toList

theorem contains_iff {p s : String} : contains p s = true ↔ p.toList <:+: s.toList := by
  unfold contains
  rw [List.any_eq_true]
  constructor
  · rintro ⟨l, hl, hp⟩
    exact (List.isPrefixOf_iff_prefix.1 hp).isInfix.trans (List.mem_tails _ _ |>.1 hl).isInfix
  · rintro ⟨a, b, h⟩
    refine ⟨p.toList ++ b, (List.mem_tails _ _).2 ⟨a, ?_⟩, ?_⟩
    · rw [← List.append_assoc, h]
    · exact List.isPrefixOf_iff_prefix.2 (List.prefix_append _ _)

theorem run_fence : ":run:".toList = fence ':' "run".toList := by decide

theorem session_fence : ":session:".toList = fence ':' "session".toList := by decide

/-- The joins of two tenants, with what follows the separator. -/
theorem joins_injective_iff {sep : String} {w : List Char} (hsep : sep.toList = fence ':' w)
    (hw : ':' ∉ w) (t t' : String) :
    (∀ r r' : String, t ++ sep ++ r = t' ++ sep ++ r' → t = t' ∧ r = r') ↔
      ¬ GoesOn sep t t' ∧ ¬ GoesOn sep t' t := by
  have lists : (∀ r r' : String, t ++ sep ++ r = t' ++ sep ++ r' → t = t' ∧ r = r') ↔
      ∀ b b', t.toList ++ fence ':' w ++ b = t'.toList ++ fence ':' w ++ b' →
        t.toList = t'.toList ∧ b = b' := by
    constructor
    · intro h b b' hb
      obtain ⟨rfl, hr⟩ := h (String.ofList b) (String.ofList b') (String.toList_inj.1 (by
        simp only [String.toList_append, String.toList_ofList, hsep]; exact hb))
      exact ⟨rfl, by simpa using congrArg String.toList hr⟩
    · intro h r r' hr
      have hb := congrArg String.toList hr
      simp only [String.toList_append, hsep] at hb
      obtain ⟨ht, hr⟩ := h _ _ hb
      exact ⟨String.toList_inj.1 ht, String.toList_inj.1 hr⟩
  rw [lists, join_injective_iff hw]
  simp only [GoesOn, String.toList_append, hsep]
  rfl

/-! ## The keys -/

theorem runKey_injective_iff (t t' : String) :
    (∀ r r', RedisRunStore.key t r = RedisRunStore.key t' r' → t = t' ∧ r = r') ↔
      ¬ GoesOn ":run:" t t' ∧ ¬ GoesOn ":run:" t' t := by
  rw [← joins_injective_iff run_fence (by decide)]
  refine forall_congr' fun r => forall_congr' fun r' => imp_congr_left ?_
  simp only [RedisRunStore.key, String.append_assoc, String.append_right_inj]

theorem memoryKey_injective_iff (t t' : String) :
    (∀ s s', RedisMemoryStore.key t s = RedisMemoryStore.key t' s' → t = t' ∧ s = s') ↔
      ¬ GoesOn ":session:" t t' ∧ ¬ GoesOn ":session:" t' t := by
  rw [← joins_injective_iff session_fence (by decide)]
  refine forall_congr' fun s => forall_congr' fun s' => imp_congr_left ?_
  unfold RedisMemoryStore.key
  rw [String.append_left_inj]
  simp only [String.append_assoc, String.append_right_inj]

theorem pointId_injective_iff {uuid5 : String → String} (hinj : Function.Injective uuid5)
    (str : V → String) (t t' : String) :
    (∀ c c' : RetrievedDocument V, qdrantTenant str c = t → qdrantTenant str c' = t' →
      qdrantPointId uuid5 str c = qdrantPointId uuid5 str c' → t = t' ∧ c.id = c'.id) ↔
      ¬ (t ++ ":").toList <+: t'.toList ∧ ¬ (t' ++ ":").toList <+: t.toList := by
  rw [String.toList_append, String.toList_append,
    show ":".toList = [':'] by decide, ← join_single_injective_iff]
  constructor
  · intro h b b' hb
    let chunk (t : String) (b : List Char) : RetrievedDocument V :=
      { id := String.ofList b, text := "", source := "", metadata := [("tenant_id", .text t)] }
    have hids : qdrantPointId uuid5 str (chunk t b) = qdrantPointId uuid5 str (chunk t' b') := by
      refine congrArg uuid5 (String.toList_inj.1 ?_)
      change (t ++ ":" ++ String.ofList b).toList = (t' ++ ":" ++ String.ofList b').toList
      simp only [String.toList_append, String.toList_ofList, show ":".toList = [':'] by decide,
        List.append_assoc, List.singleton_append]
      exact hb
    obtain ⟨rfl, hid⟩ := h (chunk t b) (chunk t' b') rfl rfl hids
    exact ⟨rfl, by simpa [chunk] using congrArg String.toList hid⟩
  · rintro h c c' rfl rfl hid
    have hb := congrArg String.toList (hinj hid)
    simp only [String.toList_append, show ":".toList = [':'] by decide, List.append_assoc,
      List.singleton_append] at hb
    obtain ⟨ht, hc⟩ := h _ _ hb
    exact ⟨String.toList_inj.1 ht, String.toList_inj.1 hc⟩

/-! ## The scan for runs -/

theorem globMatch_cons {c : Char} {p s : List Char} : globMatch (c :: p) s =
    if c = '*' then s.tails.any (globMatch p)
    else match s with
      | [] => false
      | d :: s => c = d && globMatch p s := by
  cases s <;> rfl

theorem globMatch_append {p q s : List Char} (hp : '*' ∉ p) :
    globMatch (p ++ q) s = true ↔ ∃ u, s = p ++ u ∧ globMatch q u = true := by
  induction p generalizing s with
  | nil => simp
  | cons c p ih =>
    rw [List.mem_cons, not_or] at hp
    rw [List.cons_append, globMatch_cons, if_neg (Ne.symm hp.1)]
    cases s with
    | nil => simp
    | cons d s =>
      simp only [Bool.and_eq_true, decide_eq_true_eq, ih hp.2, List.cons_append, List.cons.injEq]
      constructor
      · rintro ⟨rfl, u, rfl, hu⟩; exact ⟨u, ⟨rfl, rfl⟩, hu⟩
      · rintro ⟨u, ⟨rfl, rfl⟩, hu⟩; exact ⟨rfl, u, rfl, hu⟩

theorem globMatch_star {p s : List Char} :
    globMatch ('*' :: p) s = true ↔ ∃ u, u <:+ s ∧ globMatch p u = true := by
  rw [globMatch_cons, if_pos rfl, List.any_eq_true]
  simp only [List.mem_tails]

/-- The pattern finds the keys with a `:run:` after the prefix. -/
theorem scans_iff (rest : String) :
    RedisRunStore.scans (redisPrefix ++ ":tenant:" ++ rest) = true ↔ contains ":run:" rest = true := by
  have hpattern : RedisRunStore.pattern.toList =
      (redisPrefix ++ ":tenant:").toList ++ '*' :: (":run:".toList ++ ['*']) := by decide
  have hstar : ∀ s, globMatch ['*'] s = true := by
    intro s
    rw [globMatch_star]
    exact ⟨[], List.nil_suffix, rfl⟩
  rw [RedisRunStore.scans, hpattern, globMatch_append (by decide), contains_iff]
  constructor
  · rintro ⟨u, hu, hm⟩
    rw [String.toList_append] at hu
    obtain rfl := List.append_cancel_left hu
    obtain ⟨v, hv, hm⟩ := globMatch_star.1 hm
    obtain ⟨x, rfl, -⟩ := (globMatch_append (by decide)).1 hm
    exact (List.prefix_append _ _).isInfix.trans hv.isInfix
  · rintro ⟨a, b, h⟩
    refine ⟨rest.toList, String.toList_append, globMatch_star.2 ⟨":run:".toList ++ b, ⟨a, ?_⟩,
      (globMatch_append (by decide)).2 ⟨b, rfl, hstar b⟩⟩⟩
    rw [← List.append_assoc, h]

/-- **The scan for runs finds a memory key** if the tenant id or the session id has a `:run:`,
    together with the `:` around it. -/
theorem scans_memoryKey (t s : String) :
    RedisRunStore.scans (RedisMemoryStore.key t s) = true ↔
      contains ":run:" (t ++ ":") = true ∨ contains ":run:" (":" ++ s ++ ":") = true := by
  have hkey : RedisMemoryStore.key t s =
      redisPrefix ++ ":tenant:" ++ (t ++ ":session:" ++ s ++ ":memory") := by
    simp only [RedisMemoryStore.key, String.append_assoc]
  have hrun : ':' ∉ "run".toList := by decide
  rw [hkey, scans_iff, contains_iff, contains_iff, contains_iff, run_fence]
  simp only [String.toList_append, List.append_assoc, show ":session:".toList =
    ':' :: ("session".toList ++ [':']) by decide, show ":memory".toList = ':' :: "memory".toList by decide,
    show ":".toList = [':'] by decide, List.cons_append, List.nil_append]
  rw [infix_at hrun]
  refine or_congr Iff.rfl ?_
  refine (infix_at (a := ':' :: "session".toList) hrun).trans ?_
  rw [or_iff_right (by decide)]
  refine (infix_at (a := ':' :: s.toList) hrun).trans ?_
  exact or_iff_left (by decide)

/-! ## The theorem -/

/-- **Storage keys separate tenants and kinds** exactly under these conditions on the ids. -/
theorem storage_keys_separate (uuid5 : String → String) (hinj : Function.Injective uuid5)
    (str : V → String) :
    (∀ t t', (∀ r r', RedisRunStore.key t r = RedisRunStore.key t' r' → t = t' ∧ r = r') ↔
      ¬ GoesOn ":run:" t t' ∧ ¬ GoesOn ":run:" t' t) ∧
    (∀ t t', (∀ s s', RedisMemoryStore.key t s = RedisMemoryStore.key t' s' → t = t' ∧ s = s') ↔
      ¬ GoesOn ":session:" t t' ∧ ¬ GoesOn ":session:" t' t) ∧
    (∀ t s, RedisRunStore.scans (RedisMemoryStore.key t s) = false ↔
      contains ":run:" (t ++ ":") = false ∧ contains ":run:" (":" ++ s ++ ":") = false) ∧
    (∀ t t', (∀ c c' : RetrievedDocument V, qdrantTenant str c = t → qdrantTenant str c' = t' →
      qdrantPointId uuid5 str c = qdrantPointId uuid5 str c' → t = t' ∧ c.id = c'.id) ↔
      ¬ (t ++ ":").toList <+: t'.toList ∧ ¬ (t' ++ ":").toList <+: t.toList) := by
  refine ⟨runKey_injective_iff, memoryKey_injective_iff, fun t s => ?_, pointId_injective_iff hinj str⟩
  have h := (scans_memoryKey t s).not
  rw [not_or, Bool.not_eq_true, Bool.not_eq_true, Bool.not_eq_true] at h
  exact h

/-- Two ordinary tenants have no run, no memory and no point in common. -/
theorem storage_keys_separate_ordinary :
    (∀ r r', RedisRunStore.key "acme" r = RedisRunStore.key "globex" r' → "acme" = "globex" ∧ r = r') ∧
    RedisRunStore.scans (RedisMemoryStore.key "acme" "session") = false := by
  obtain ⟨hrun, -, hscan, -⟩ := storage_keys_separate (V := String) id Function.injective_id id
  refine ⟨(hrun "acme" "globex").2 ⟨?_, ?_⟩, (hscan "acme" "session").2 ⟨?_, ?_⟩⟩
  · unfold GoesOn; decide
  · unfold GoesOn; decide
  · decide +kernel
  · decide +kernel

/-- Ids with separators: the run, memory and point keys of two tenants are the same, and the
    scan for runs finds a memory key. -/
theorem storage_keys_collide :
    (¬ ∀ t r t' r', RedisRunStore.key t r = RedisRunStore.key t' r' → t = t' ∧ r = r') ∧
    (¬ ∀ t s t' s', RedisMemoryStore.key t s = RedisMemoryStore.key t' s' → t = t' ∧ s = s') ∧
    (¬ ∀ t s, RedisRunStore.scans (RedisMemoryStore.key t s) = false) ∧
    ¬ ∀ uuid5 : String → String, Function.Injective uuid5 → ∀ c c' : RetrievedDocument String,
      qdrantPointId uuid5 id c = qdrantPointId uuid5 id c' →
        qdrantTenant id c = qdrantTenant id c' ∧ c.id = c'.id := by
  refine ⟨fun h => ?_, fun h => ?_, fun h => ?_, fun h => ?_⟩
  · exact absurd (h "a" "b:run:c" "a:run:b" "c" (by decide)).1 (by decide)
  · exact absurd (h "a" "b:session:c" "a:session:b" "c" (by decide)).1 (by decide)
  · exact absurd (h "a:run:b" "s") (by decide +kernel)
  · exact absurd (h id Function.injective_id
      { id := "b:c:0", text := "", source := "", metadata := [("tenant_id", .text "a")] }
      { id := "c:0", text := "", source := "", metadata := [("tenant_id", .text "a:b")] }
      (by decide)).1 (by decide)

end TracciaRuntime
