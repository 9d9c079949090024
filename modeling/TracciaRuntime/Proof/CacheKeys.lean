/-
  The isolation of cache keys.

  A key holds the digest of the ids of its scope and of the fingerprint, joined by a
  unit separator.

  * `scopeMaterial_eq`: the material of an accepted context is the join of its ids and
    its fingerprint, or `global` if there are none;
  * `fingerprint_injective`: permissions without a comma can be read off the
    fingerprint of a tool call;
  * `cache_keys_isolate`: over which letters equal keys come from contexts that
    agree, and from tool calls with the same permissions.
-/
import TracciaRuntime.Tools.Executor
import TracciaRuntime.Text.Separators
import TracciaRuntime.Py.Result
import Mathlib.Logic.Encodable.Basic
import Mathlib.Logic.Denumerable
import Mathlib.Logic.Equiv.List

namespace TracciaRuntime

open Py Text

variable {V : Type}

/-! ## Contexts -/

namespace CacheContext

/-- The authorization fingerprint, an empty one counting as absent. -/
def fingerprint (c : CacheContext) : Option String :=
  c.authorizationFingerprint.filter (· ≠ "")

/-- The ids of a scope. -/
def ids (c : CacheContext) : CacheScope → List (Option String)
  | .global => []
  | .tenant => [c.tenantId]
  | .user => [c.tenantId, c.userId]
  | .session => [c.tenantId, c.userId, c.sessionId]
  | .run => [c.tenantId, c.userId, c.runId]

/-- The fields that a scope makes relevant are the same. -/
structure Agree (scope : CacheScope) (c c' : CacheContext) : Prop where
  tenant : scope ≠ .global → c.tenantId = c'.tenantId
  user : scope = .user ∨ scope = .session ∨ scope = .run → c.userId = c'.userId
  session : scope = .session → c.sessionId = c'.sessionId
  run : scope = .run → c.runId = c'.runId
  fingerprint : c.fingerprint = c'.fingerprint

/-- All texts of the context are written with these letters. -/
def WrittenIn (letters : Set Char) (c : CacheContext) : Prop :=
  ∀ s, (c.tenantId = some s ∨ c.userId = some s ∨ c.sessionId = some s ∨ c.runId = some s ∨
    c.authorizationFingerprint = some s) → ∀ x ∈ s.toList, x ∈ letters

theorem agree_iff {scope : CacheScope} {c c' : CacheContext} :
    Agree scope c c' ↔ c.ids scope = c'.ids scope ∧ c.fingerprint = c'.fingerprint := by
  constructor
  · intro h
    refine ⟨?_, h.fingerprint⟩
    cases scope with
    | global => rfl
    | tenant => simp [ids, h.tenant]
    | user => simp [ids, h.tenant, h.user]
    | session => simp [ids, h.tenant, h.user, h.session]
    | run => simp [ids, h.tenant, h.user, h.run]
  · rintro ⟨hids, hf⟩
    cases scope <;> simp only [ids, List.cons.injEq, and_true] at hids <;>
      exact ⟨by simp [hids], by simp [hids], by simp [hids], by simp [hids], hf⟩

theorem fingerprint_some {c : CacheContext} {s : String} (h : c.fingerprint = some s) :
    c.authorizationFingerprint = some s ∧ s ≠ "" := by
  simpa [fingerprint, Option.filter_eq_some_iff] using h

end CacheContext

namespace CacheService

/-! ## The material of a scope -/

/-- The join of the parts of a scope. -/
def spelled (parts : List String) : String :=
  let joined := "\x1f".intercalate parts
  if joined = "" then "global" else joined

theorem required_eq_ok {part : Option String} {m : String} {l : List String} :
    required part m = .ok l ↔ ∃ s, part = some s ∧ s ≠ "" ∧ l = [s] := by
  unfold required
  cases part with
  | none => simp
  | some s => by_cases hs : s = "" <;> simp [hs, eq_comm]

theorem fingerprint_parts (f : Option String) : (match f with
    | some s => if s = "" then [] else [s]
    | none => []) = (f.filter (· ≠ "")).toList := by
  cases f with
  | none => rfl
  | some s => by_cases hs : s = "" <;> simp [hs, Option.filter]

/-- The ids of an accepted context are there and not empty, and its material is the join of them
    and the fingerprint. -/
theorem scopeMaterial_eq {c : CacheContext} {scope : CacheScope} {m : String}
    (h : scopeMaterial c scope = .ok m) : ∃ ids : List String, c.ids scope = ids.map some ∧
      "" ∉ ids ∧ m = spelled (ids ++ c.fingerprint.toList) := by
  unfold scopeMaterial at h
  rw [CacheContext.fingerprint, ← fingerprint_parts]
  cases scope with
  | global =>
    cases h
    exact ⟨[], rfl, List.not_mem_nil, rfl⟩
  | tenant =>
    simp only [reduceCtorEq, if_false, or_self, bind_eq_ok, required_eq_ok, Except.ok.injEq,
      exists_eq_left'] at h
    obtain ⟨_, ⟨t, ht, hne, rfl⟩, h⟩ := h
    exact ⟨[t], by simp [CacheContext.ids, ht], by simp [hne.symm], h.symm⟩
  | user =>
    simp only [reduceCtorEq, if_false, or_self, if_true, true_or, bind_eq_ok, required_eq_ok,
      Except.ok.injEq, exists_eq_left'] at h
    obtain ⟨_, ⟨t, ht, hne, rfl⟩, _, ⟨u, hu, hne', rfl⟩, h⟩ := h
    exact ⟨[t, u], by simp [CacheContext.ids, ht, hu], by simp [hne.symm, hne'.symm],
      h.symm⟩
  | session =>
    simp only [reduceCtorEq, if_false, if_true, true_or, or_true, bind_eq_ok, required_eq_ok,
      Except.ok.injEq, exists_eq_left'] at h
    obtain ⟨_, ⟨t, ht, hne, rfl⟩, _, ⟨u, hu, hne', rfl⟩, _, ⟨s, hs, hne'', rfl⟩, h⟩ := h
    exact ⟨[t, u, s], by simp [CacheContext.ids, ht, hu, hs],
      by simp [hne.symm, hne'.symm, hne''.symm], h.symm⟩
  | run =>
    simp only [reduceCtorEq, if_false, if_true, or_true, bind_eq_ok, required_eq_ok,
      Except.ok.injEq, exists_eq_left'] at h
    obtain ⟨_, ⟨t, ht, hne, rfl⟩, _, ⟨u, hu, hne', rfl⟩, _, ⟨r, hr, hne'', rfl⟩, h⟩ := h
    exact ⟨[t, u, r], by simp [CacheContext.ids, ht, hu, hr],
      by simp [hne.symm, hne'.symm, hne''.symm], h.symm⟩

/-- The join of parts that are not empty is not empty. -/
theorem intercalate_ne_empty {sep : String} {l : List String} (hl : "" ∉ l) (hne : l ≠ []) :
    sep.intercalate l ≠ "" := by
  obtain ⟨s, l, rfl⟩ := List.exists_cons_of_ne_nil hne
  have hs : s ≠ "" := fun h => hl (by simp [h])
  cases l with
  | nil => simpa using hs
  | cons t l => simp [String.intercalate_cons_cons, hs]

theorem spelled_eq {l : List String} (hl : "" ∉ l) (hne : l ≠ []) :
    spelled l = "\x1f".intercalate l := if_neg (intercalate_ne_empty hl hne)

/-- Parts without the separator can be read off the material. -/
theorem spelled_injective {l l' : List String} (hl : "" ∉ l) (hl' : "" ∉ l') (hne : l ≠ [])
    (hne' : l' ≠ []) (hs : ∀ s ∈ l, '\x1f' ∉ s.toList) (hs' : ∀ s ∈ l', '\x1f' ∉ s.toList)
    (h : spelled l = spelled l') : l = l' := by
  rw [spelled_eq hl hne, spelled_eq hl' hne'] at h
  exact intercalate_injective hs hs' hne hne' h

/-! ## Keys -/

theorem namespace_letters (value : String) : ':' ∉ (namespace_ value).toList := by
  unfold namespace_
  rw [String.toList_ofList]
  intro h
  obtain ⟨c, -, hc⟩ := List.mem_map.1 (List.mem_of_mem_take h)
  dsimp only at hc
  split at hc
  · rename_i hk; subst hc; revert hk; decide
  · revert hc; decide

section
variable {lib : Lib V} {policyName ns : String} {material material' : V} {c c' : CacheContext}
  {p : CachePolicy}

theorem key_eq_ok {k : String} : key lib policyName ns material c p = .ok k ↔
    ∃ m, scopeMaterial c p.scope = .ok m ∧ k = ":".intercalate ["v1", namespace_ policyName,
      namespace_ ns, lib.digest m, lib.digest (lib.canonical material)] := by
  unfold key
  rw [bind_eq_ok]
  simp only [Except.ok.injEq, eq_comm]

/-- Contexts with one key have the same material. -/
theorem scopeMaterial_of_key (hinj : Function.Injective lib.digest)
    (hhex : ∀ s, ':' ∉ (lib.digest s).toList) {k : String}
    (h : key lib policyName ns material c p = .ok k)
    (h' : key lib policyName ns material' c' p = .ok k) :
    ∃ m, scopeMaterial c p.scope = .ok m ∧ scopeMaterial c' p.scope = .ok m := by
  obtain ⟨m, hm, hk⟩ := key_eq_ok.1 h
  obtain ⟨m', hm', hk'⟩ := key_eq_ok.1 h'
  have hparts : ∀ (x : String) (y : V), ∀ s ∈ ["v1", namespace_ policyName, namespace_ ns,
      lib.digest x, lib.digest (lib.canonical y)], ':' ∉ s.toList := by
    intro x y s hs
    simp only [List.mem_cons, List.not_mem_nil, or_false] at hs
    rcases hs with rfl | rfl | rfl | rfl | rfl
    · decide
    · exact namespace_letters _
    · exact namespace_letters _
    · exact hhex _
    · exact hhex _
  have hlist := intercalate_injective (hparts m material) (hparts m' material')
    (List.cons_ne_nil _ _) (List.cons_ne_nil _ _) (hk.symm.trans hk')
  simp only [List.cons.injEq, true_and] at hlist
  obtain rfl := hinj hlist.1
  exact ⟨m, hm, hm'⟩

/-- Accepted contexts with the same material have one key. -/
theorem exists_key {m : String} (h : scopeMaterial c p.scope = .ok m)
    (h' : scopeMaterial c' p.scope = .ok m) :
    ∃ k, key lib policyName ns material c p = .ok k ∧ key lib policyName ns material c' p = .ok k :=
  ⟨_, key_eq_ok.2 ⟨m, h, rfl⟩, key_eq_ok.2 ⟨m, h', rfl⟩⟩

end

end CacheService

/-! ## Contexts with one key -/

theorem CacheService.scopeMaterial_global (c : CacheContext) :
    CacheService.scopeMaterial c .global = .ok (c.fingerprint.getD "global") := by
  cases hf : c.authorizationFingerprint with
  | none =>
    simp only [CacheContext.fingerprint, hf, Option.filter_none, Option.getD_none]
    simp only [CacheService.scopeMaterial, hf]
    rfl
  | some s =>
    by_cases hs : s = ""
    · simp only [CacheContext.fingerprint, CacheService.scopeMaterial, hf, hs]
      rfl
    · simp only [CacheContext.fingerprint, CacheService.scopeMaterial, hf, Option.filter_some,
        ne_eq, hs, not_false_eq_true, decide_true, if_true, if_false, Option.getD_some]
      exact congrArg Except.ok ((if_neg (by simpa using hs)).trans (by simp))

namespace CacheContext

/-- The ids of a scope are texts of the context. -/
theorem WrittenIn.mem_ids {letters : Set Char} {c : CacheContext} (hc : c.WrittenIn letters)
    {scope : CacheScope} {s : String} (hs : some s ∈ c.ids scope) :
    ∀ x ∈ s.toList, x ∈ letters := by
  refine hc s ?_
  cases scope <;> simp only [ids, List.mem_cons, List.not_mem_nil, or_false] at hs <;> tauto

theorem WrittenIn.mem_fingerprint {letters : Set Char} {c : CacheContext}
    (hc : c.WrittenIn letters) {s : String} (hs : c.fingerprint = some s) :
    ∀ x ∈ s.toList, x ∈ letters :=
  hc s (by simp [(fingerprint_some hs).1])

/-- The number of ids depends on the scope only. -/
theorem length_ids (c c' : CacheContext) (scope : CacheScope) :
    (c.ids scope).length = (c'.ids scope).length := by
  cases scope <;> rfl

theorem ids_ne_nil (c : CacheContext) {scope : CacheScope} (h : scope ≠ .global) :
    c.ids scope ≠ [] := by
  cases scope <;> simp_all [ids]

end CacheContext

section
variable {lib : Lib V} (hinj : Function.Injective lib.digest)
  (hhex : ∀ s, ':' ∉ (lib.digest s).toList) {p : CachePolicy}
include hinj hhex

/-- Equal keys without ids in the scope: the word `global` stands for the missing fingerprint. -/
theorem fingerprint_of_key (hp : p.scope = .global) {policyName ns : String}
    {material material' : V} {c c' : CacheContext}
    (hnot : ¬ ((c.fingerprint = none ∧ c'.fingerprint = some "global") ∨
      (c.fingerprint = some "global" ∧ c'.fingerprint = none))) {k : String}
    (h : CacheService.key lib policyName ns material c p = .ok k)
    (h' : CacheService.key lib policyName ns material' c' p = .ok k) :
    c.fingerprint = c'.fingerprint := by
  obtain ⟨m, hc, hc'⟩ := CacheService.scopeMaterial_of_key hinj hhex h h'
  rw [hp, CacheService.scopeMaterial_global] at hc hc'
  have heq := (Except.ok.inj hc).trans (Except.ok.inj hc').symm
  cases hf : c.fingerprint with
  | none =>
    cases hf' : c'.fingerprint with
    | none => rfl
    | some s' => simp_all
  | some s =>
    cases hf' : c'.fingerprint with
    | none => simp_all
    | some s' => simp_all

/-- **Which contexts are kept apart** without ids in the scope. -/
theorem global_agree_iff (hp : p.scope = .global) (policyName ns : String) (material : V)
    (c c' : CacheContext) :
    (∀ k, CacheService.key lib policyName ns material c p = .ok k →
      CacheService.key lib policyName ns material c' p = .ok k → c.Agree p.scope c') ↔
      ¬ ((c.fingerprint = none ∧ c'.fingerprint = some "global") ∨
        (c.fingerprint = some "global" ∧ c'.fingerprint = none)) := by
  have hagree : c.Agree p.scope c' ↔ c.fingerprint = c'.fingerprint := by
    rw [CacheContext.agree_iff, hp]
    exact and_iff_right rfl
  rw [hagree]
  constructor
  · intro h hnot
    have hm : CacheService.scopeMaterial c p.scope = .ok "global" := by
      rw [hp, CacheService.scopeMaterial_global]
      rcases hnot with ⟨hf, -⟩ | ⟨hf, -⟩ <;> rw [hf] <;> rfl
    have hm' : CacheService.scopeMaterial c' p.scope = .ok "global" := by
      rw [hp, CacheService.scopeMaterial_global]
      rcases hnot with ⟨-, hf⟩ | ⟨-, hf⟩ <;> rw [hf] <;> rfl
    obtain ⟨k, hk, hk'⟩ := CacheService.exists_key hm hm'
    have hf := h k hk hk'
    rcases hnot with ⟨h, h'⟩ | ⟨h, h'⟩ <;> rw [h, h'] at hf <;> cases hf
  · intro hnot k hk hk'
    exact fingerprint_of_key hinj hhex hp hnot hk hk'

/-- Equal keys of contexts without the separator. -/
theorem agree_of_key (hp : p.scope ≠ .global) {letters : Set Char} (hsep : '\x1f' ∉ letters)
    {policyName ns : String} {material material' : V} {c c' : CacheContext}
    (hc : c.WrittenIn letters) (hc' : c'.WrittenIn letters) {k : String}
    (h : CacheService.key lib policyName ns material c p = .ok k)
    (h' : CacheService.key lib policyName ns material' c' p = .ok k) : c.Agree p.scope c' := by
  obtain ⟨m, hm, hm'⟩ := CacheService.scopeMaterial_of_key hinj hhex h h'
  obtain ⟨ids, hids, hne, rfl⟩ := CacheService.scopeMaterial_eq hm
  obtain ⟨ids', hids', hne', hspelled⟩ := CacheService.scopeMaterial_eq hm'
  have hparts : ∀ (c : CacheContext) (ids : List String), c.WrittenIn letters →
      c.ids p.scope = ids.map some → "" ∉ ids →
      "" ∉ ids ++ c.fingerprint.toList ∧ ids ++ c.fingerprint.toList ≠ [] ∧
        ∀ s ∈ ids ++ c.fingerprint.toList, '\x1f' ∉ s.toList := by
    intro c ids hc hids hne
    refine ⟨?_, ?_, ?_⟩
    · simp only [List.mem_append, Option.mem_toList, not_or]
      exact ⟨hne, fun h => (CacheContext.fingerprint_some h).2 rfl⟩
    · intro hnil
      rw [List.append_eq_nil_iff] at hnil
      exact c.ids_ne_nil hp (by rw [hids, hnil.1]; rfl)
    · intro s hs hx
      rcases List.mem_append.1 hs with hs | hs
      · exact hsep (hc.mem_ids (by rw [hids]; exact List.mem_map_of_mem hs) _ hx)
      · exact hsep (hc.mem_fingerprint (by simpa using hs) _ hx)
  obtain ⟨hl, hnil, hs⟩ := hparts c ids hc hids hne
  obtain ⟨hl', hnil', hs'⟩ := hparts c' ids' hc' hids' hne'
  have hlist := CacheService.spelled_injective hl hl' hnil hnil' hs hs' hspelled
  have hlen : ids.length = ids'.length := by
    have := c.length_ids c' p.scope
    rwa [hids, hids', List.length_map, List.length_map] at this
  obtain ⟨rfl, hf⟩ := List.append_inj hlist hlen
  exact CacheContext.agree_iff.2 ⟨hids.trans hids'.symm, Option.ext fun s => by
    rw [← Option.mem_toList, hf, Option.mem_toList]⟩

end

/-- Ids and a fingerprint of one separator each. -/
def CacheContext.apart (session : Bool) : CacheContext :=
  ⟨some "\x1f", some "\x1f", if session then some "\x1f" else none, some "\x1f", some "\x1f"⟩

/-- The last id of the scope is the join of the last id and the fingerprint of `apart`. -/
def CacheContext.merged (scope : CacheScope) (session : Bool) : CacheContext :=
  let last (q : CacheScope) : String := if q = scope then "\x1f\x1f\x1f" else "\x1f"
  ⟨some (last .tenant), some (last .user), if session then some (last .session) else none,
    some (last .run), none⟩

theorem CacheService.scopeMaterial_merged {scope : CacheScope} {session : Bool}
    (hglobal : scope ≠ .global) (hsession : scope = .session → session = true) :
    ∃ m, CacheService.scopeMaterial (.apart session) scope = .ok m ∧
      CacheService.scopeMaterial (.merged scope session) scope = .ok m := by
  cases scope with
  | global => exact absurd rfl hglobal
  | tenant => cases session <;> exact ⟨"\x1f\x1f\x1f", by decide +kernel, by decide +kernel⟩
  | user =>
    cases session <;> exact ⟨"\x1f\x1f\x1f\x1f\x1f", by decide +kernel, by decide +kernel⟩
  | session =>
    rw [hsession rfl]
    exact ⟨"\x1f\x1f\x1f\x1f\x1f\x1f\x1f", by decide +kernel, by decide +kernel⟩
  | run =>
    cases session <;>
      exact ⟨"\x1f\x1f\x1f\x1f\x1f\x1f\x1f", by decide +kernel, by decide +kernel⟩

/-- **Which letters keep contexts apart** in a scope with ids. -/
theorem scoped_agree_iff {lib : Lib V} (hinj : Function.Injective lib.digest)
    (hhex : ∀ s, ':' ∉ (lib.digest s).toList) {p : CachePolicy} (hp : p.scope ≠ .global)
    (policyName ns : String) (material : V) (letters : Set Char) :
    (∀ c c' : CacheContext, c.WrittenIn letters → c'.WrittenIn letters → ∀ k,
      CacheService.key lib policyName ns material c p = .ok k →
      CacheService.key lib policyName ns material c' p = .ok k → c.Agree p.scope c') ↔
      '\x1f' ∉ letters := by
  constructor
  · intro h hsep
    have hone : ∀ x ∈ "\x1f".toList, x ∈ letters := by simpa using hsep
    have hthree : ∀ x ∈ "\x1f\x1f\x1f".toList, x ∈ letters := by simpa using hsep
    obtain ⟨m, hm, hm'⟩ := CacheService.scopeMaterial_merged hp fun _ => rfl
    obtain ⟨k, hk, hk'⟩ := CacheService.exists_key hm hm'
    refine absurd (h _ _ ?_ ?_ k hk hk').fingerprint (by cases p.scope <;> decide)
    · rintro s (hs | hs | hs | hs | hs) <;> cases hs <;> exact hone
    · generalize p.scope = scope
      rintro s (hs | hs | hs | hs | hs) <;> cases scope <;> cases hs <;>
        first | exact hone | exact hthree
  · intro hsep c c' hc hc' k hk hk'
    exact agree_of_key hinj hhex hp hsep hc hc' hk hk'

/-! ## Tool calls -/

namespace ToolContext

/-- The ids and the permissions of the call are written with these letters, and no permission is
    the empty text. -/
structure WrittenIn (letters : Set Char) (x : ToolContext) : Prop where
  ids : ∀ s, (s = x.tenantId ∨ s = x.userId ∨ s = x.runId) → ∀ c ∈ s.toList, c ∈ letters
  permissions : ∀ s ∈ x.permissions, s ≠ "" ∧ ∀ c ∈ s.toList, c ∈ letters

end ToolContext

namespace ToolExecutor

variable {letters : Set Char} {x x' : ToolContext}

theorem mem_sorted {names : Finset String} {s : String} : s ∈ sorted names ↔ s ∈ names := by
  simp [sorted]

/-- The letters of a join. -/
theorem mem_intercalate {sep : String} {l : List String} {c : Char}
    (h : c ∈ (sep.intercalate l).toList) : c ∈ sep.toList ∨ ∃ s ∈ l, c ∈ s.toList := by
  induction l with
  | nil => simp at h
  | cons s l ih =>
    cases l with
    | nil => exact Or.inr ⟨s, by simp, by simpa using h⟩
    | cons t l =>
      rw [String.intercalate_cons_cons] at h
      simp only [String.toList_append, List.mem_append] at h
      rcases h with (h | h) | h
      · exact Or.inr ⟨s, by simp, h⟩
      · exact Or.inl h
      · rcases ih h with h | ⟨u, hu, h⟩
        · exact Or.inl h
        · exact Or.inr ⟨u, List.mem_cons_of_mem s hu, h⟩

/-- The context of a call is written with its letters and the comma. -/
theorem cacheContext_written (hx : x.WrittenIn letters) :
    (cacheContext x).WrittenIn (insert ',' letters) := by
  rintro s (hs | hs | hs | hs | hs) c hc <;> cases hs
  · exact Or.inr (hx.ids _ (Or.inl rfl) c hc)
  · exact Or.inr (hx.ids _ (Or.inr (Or.inl rfl)) c hc)
  · exact Or.inr (hx.ids _ (Or.inr (Or.inr rfl)) c hc)
  · rcases mem_intercalate hc with h | ⟨s, hs, h⟩
    · exact Or.inl (by simpa using h)
    · exact Or.inr ((hx.permissions s (mem_sorted.1 hs)).2 c h)

theorem sorted_ne_nil {names : Finset String} (h : names ≠ ∅) : sorted names ≠ [] := by
  obtain ⟨s, hs⟩ := Finset.nonempty_iff_ne_empty.2 h
  exact List.ne_nil_of_mem (mem_sorted.2 hs)

theorem fingerprint_empty (hx : x.permissions = ∅) : (cacheContext x).fingerprint = none := by
  simp [cacheContext, CacheContext.fingerprint, hx, sorted]

theorem fingerprint_join (hx : x.WrittenIn letters) (hne : x.permissions ≠ ∅) :
    (cacheContext x).fingerprint = some (",".intercalate (sorted x.permissions)) := by
  have : ",".intercalate (sorted x.permissions) ≠ "" :=
    CacheService.intercalate_ne_empty (fun h => (hx.permissions _ (mem_sorted.1 h)).1 rfl)
      (sorted_ne_nil hne)
  simp [cacheContext, CacheContext.fingerprint, this]

/-- Permissions without a comma can be read off the fingerprint. -/
theorem fingerprint_injective (hcomma : ',' ∉ letters) (hx : x.WrittenIn letters)
    (hx' : x'.WrittenIn letters)
    (h : (cacheContext x).fingerprint = (cacheContext x').fingerprint) :
    x.permissions = x'.permissions := by
  have hfree : ∀ {x : ToolContext}, x.WrittenIn letters →
      ∀ s ∈ sorted x.permissions, ',' ∉ s.toList :=
    fun hx s hs hc => hcomma ((hx.permissions s (mem_sorted.1 hs)).2 _ hc)
  by_cases hne : x.permissions = ∅
  · by_cases hne' : x'.permissions = ∅
    · rw [hne, hne']
    · rw [fingerprint_empty hne, fingerprint_join hx' hne'] at h
      cases h
  · by_cases hne' : x'.permissions = ∅
    · rw [fingerprint_join hx hne, fingerprint_empty hne'] at h
      cases h
    · rw [fingerprint_join hx hne, fingerprint_join hx' hne'] at h
      have hlist := intercalate_injective (hfree hx) (hfree hx') (sorted_ne_nil hne)
        (sorted_ne_nil hne') (Option.some.inj h)
      ext s
      rw [← mem_sorted, hlist, mem_sorted]

/-- No context of a tool call has a session. -/
theorem session_rejected (x : ToolContext) {m : String} :
    CacheService.scopeMaterial (cacheContext x) .session ≠ .ok m := by
  intro h
  obtain ⟨ids, hids, -, -⟩ := CacheService.scopeMaterial_eq h
  have hnone : (none : Option String) ∈ ids.map some := by
    rw [← hids]
    simp [CacheContext.ids, cacheContext]
  simp at hnone

section
variable {lib : Lib V} (hinj : Function.Injective lib.digest)
  (hhex : ∀ s, ':' ∉ (lib.digest s).toList) {p : CachePolicy}
include hinj hhex

/-- Calls with one key have the same permissions. -/
theorem permissions_of_key (hcomma : ',' ∉ letters)
    (hletters : if p.scope = .global then ¬ ∀ c ∈ "global".toList, c ∈ letters
      else '\x1f' ∉ letters) (hx : x.WrittenIn letters) (hx' : x'.WrittenIn letters)
    {policyName ns : String} {material material' : V} {k : String}
    (h : CacheService.key lib policyName ns material (cacheContext x) p = .ok k)
    (h' : CacheService.key lib policyName ns material' (cacheContext x') p = .ok k) :
    x.permissions = x'.permissions := by
  refine fingerprint_injective hcomma hx hx' ?_
  by_cases hp : p.scope = .global
  · rw [if_pos hp] at hletters
    have hword : ∀ {x : ToolContext}, x.WrittenIn letters →
        (cacheContext x).fingerprint ≠ some "global" := by
      intro x hx hf
      refine hletters fun c hc => ?_
      rcases (cacheContext_written hx).mem_fingerprint hf c hc with rfl | hc
      · exact absurd hc (by decide)
      · exact hc
    refine fingerprint_of_key hinj hhex hp ?_ h h'
    rintro (⟨-, hf⟩ | ⟨hf, -⟩)
    · exact hword hx' hf
    · exact hword hx hf
  · rw [if_neg hp] at hletters
    have hsep : '\x1f' ∉ insert ',' letters := by
      rintro (h | h)
      · revert h; decide
      · exact hletters h
    exact (agree_of_key hinj hhex hp hsep (cacheContext_written hx) (cacheContext_written hx')
      h h').fingerprint

end

/-- A call with these ids and permissions. -/
def callOf (tenantId userId runId : String) (permissions : Finset String) : ToolContext :=
  ⟨runId, "", tenantId, userId, permissions, ""⟩

theorem callOf_written {a b c : String} {permissions : Finset String}
    (ha : ∀ x ∈ a.toList, x ∈ letters) (hb : ∀ x ∈ b.toList, x ∈ letters)
    (hc : ∀ x ∈ c.toList, x ∈ letters)
    (hp : ∀ s ∈ permissions, s ≠ "" ∧ ∀ x ∈ s.toList, x ∈ letters) :
    (callOf a b c permissions).WrittenIn letters := by
  refine ⟨?_, hp⟩
  rintro s (rfl | rfl | rfl)
  · exact ha
  · exact hb
  · exact hc

/-- Two permissions with the comma between them are one with a comma inside. -/
theorem clash_comma {scope : CacheScope} (hscope : scope ≠ .session) : ∃ m,
    CacheService.scopeMaterial (cacheContext (callOf "," "," "," {",", ",,"})) scope = .ok m ∧
    CacheService.scopeMaterial (cacheContext (callOf "," "," "," {",,,,"})) scope = .ok m := by
  have hsorted : sorted {",", ",,"} = [",", ",,"] := by
    rw [sorted, Finset.sort_insert _ (by decide) (by decide), Finset.sort_singleton]
  have hcontext : cacheContext (callOf "," "," "," {",", ",,"}) =
      cacheContext (callOf "," "," "," {",,,,"}) := by
    have : ",".intercalate (sorted {",", ",,"}) = ",".intercalate (sorted {",,,,"}) := by
      rw [hsorted, sorted, Finset.sort_singleton]
      decide
    simp only [cacheContext, callOf, this]
  rw [hcontext]
  cases scope with
  | global => exact ⟨",,,,", by decide +kernel, by decide +kernel⟩
  | tenant => exact ⟨",\x1f,,,,", by decide +kernel, by decide +kernel⟩
  | user => exact ⟨",\x1f,\x1f,,,,", by decide +kernel, by decide +kernel⟩
  | session => exact absurd rfl hscope
  | run => exact ⟨",\x1f,\x1f,\x1f,,,,", by decide +kernel, by decide +kernel⟩

/-- A call without permissions, whose last id of the scope is three separators. -/
def callMerged (scope : CacheScope) : ToolContext :=
  let last (q : CacheScope) : String := if q = scope then "\x1f\x1f\x1f" else "\x1f"
  callOf (last .tenant) (last .user) (last .run) ∅

/-- A permission after the last id is inside that id. -/
theorem clash_separator {scope : CacheScope} (hscope : scope ≠ .session)
    (hglobal : scope ≠ .global) : ∃ m,
    CacheService.scopeMaterial (cacheContext (callOf "\x1f" "\x1f" "\x1f" {"\x1f"})) scope =
      .ok m ∧
    CacheService.scopeMaterial (cacheContext (callMerged scope)) scope = .ok m := by
  cases scope with
  | global => exact absurd rfl hglobal
  | tenant => exact ⟨"\x1f\x1f\x1f", by decide +kernel, by decide +kernel⟩
  | user => exact ⟨"\x1f\x1f\x1f\x1f\x1f", by decide +kernel, by decide +kernel⟩
  | session => exact absurd rfl hscope
  | run => exact ⟨"\x1f\x1f\x1f\x1f\x1f\x1f\x1f", by decide +kernel, by decide +kernel⟩

/-- The empty permission reads as no permission. -/
theorem cacheContext_empty (x : ToolContext) :
    cacheContext { x with permissions := {""} } = cacheContext { x with permissions := ∅ } := by
  simp [cacheContext, sorted]

/-- **Which letters keep the permissions of tool calls apart.** -/
theorem permissions_eq_iff (cfg : Config V) (hinj : Function.Injective cfg.lib.digest)
    (hhex : ∀ s, ':' ∉ (cfg.lib.digest s).toList) (p : CachePolicy) (letters : Set Char) :
    (∀ x x' : ToolContext, x.WrittenIn letters → x'.WrittenIn letters →
      ∀ (definition definition' : ToolDefinition V) (arguments arguments' : Dict String V)
        (k : String),
      CacheService.key cfg.lib "tool_results" "tool.result"
        (cacheMaterial cfg definition arguments) (cacheContext x) p = .ok k →
      CacheService.key cfg.lib "tool_results" "tool.result"
        (cacheMaterial cfg definition' arguments') (cacheContext x') p = .ok k →
      x.permissions = x'.permissions) ↔
      p.scope = .session ∨ (',' ∉ letters ∧ if p.scope = .global then
        ¬ ∀ c ∈ "global".toList, c ∈ letters else '\x1f' ∉ letters) := by
  constructor
  · intro h
    by_contra hnot
    rw [not_or] at hnot
    obtain ⟨hsession, hnot⟩ := hnot
    have hclash : ∀ x x' : ToolContext, x.WrittenIn letters → x'.WrittenIn letters →
        (∃ m, CacheService.scopeMaterial (cacheContext x) p.scope = .ok m ∧
          CacheService.scopeMaterial (cacheContext x') p.scope = .ok m) →
        x.permissions = x'.permissions := by
      rintro x x' hx hx' ⟨m, hm, hm'⟩
      obtain ⟨k, hk, hk'⟩ := CacheService.exists_key hm hm'
      exact h x x' hx hx' ⟨"", "", "", [], [], ∅, .none, .idempotent, 30, {}, 10, 1⟩
        ⟨"", "", "", [], [], ∅, .none, .idempotent, 30, {}, 10, 1⟩ [] [] k hk hk'
    refine hnot ⟨fun hcomma => ?_, ?_⟩
    · have hpermissions := hclash _ _
        (callOf_written (by simpa using hcomma) (by simpa using hcomma) (by simpa using hcomma) ?_)
        (callOf_written (by simpa using hcomma) (by simpa using hcomma) (by simpa using hcomma) ?_)
        (clash_comma hsession)
      · exact absurd hpermissions (by decide)
      · simpa using hcomma
      · simpa using hcomma
    · split
      · rename_i hglobal
        intro hword
        have hpermissions := hclash (callOf "" "" "" {"global"}) (callOf "" "" "" ∅)
          (callOf_written (by simp) (by simp) (by simp) (by simpa using hword))
          (callOf_written (by simp) (by simp) (by simp) (by simp))
          (by rw [hglobal]; exact ⟨"global", by decide +kernel, by decide +kernel⟩)
        exact absurd hpermissions (by decide)
      · rename_i hglobal
        intro hsep
        have hlast : ∀ q : Prop, ∀ [Decidable q],
            ∀ x ∈ (if q then "\x1f\x1f\x1f" else "\x1f" : String).toList, x ∈ letters := by
          intro q _
          split <;> simpa using hsep
        have hpermissions := hclash _ _
          (callOf_written (by simpa using hsep) (by simpa using hsep) (by simpa using hsep)
            (by simpa using hsep))
          (callOf_written (hlast _) (hlast _) (hlast _) (by simp))
          (clash_separator hsession hglobal)
        exact absurd hpermissions (Finset.singleton_ne_empty _)
  · rintro (hsession | ⟨hcomma, hletters⟩) x x' hx hx' d d' a a' k h h'
    · obtain ⟨m, hm, -⟩ := CacheService.key_eq_ok.1 h
      rw [hsession] at hm
      exact absurd hm (session_rejected x)
    · exact permissions_of_key hinj hhex hcomma hletters hx hx' h h'

end ToolExecutor

/-! ## The theorem -/

/-- **Equal cache keys come from contexts that agree**, exactly under these conditions on the
    texts: the fingerprint `global` next to a missing one, the unit separator, and the comma. -/
theorem cache_keys_isolate (cfg : Config V) (hinj : Function.Injective cfg.lib.digest)
    (hhex : ∀ s, ':' ∉ (cfg.lib.digest s).toList) (p : CachePolicy) :
    (p.scope = .global → ∀ (policyName ns : String) (material : V) (c c' : CacheContext),
      (∀ k, CacheService.key cfg.lib policyName ns material c p = .ok k →
        CacheService.key cfg.lib policyName ns material c' p = .ok k → c.Agree p.scope c') ↔
        ¬ ((c.fingerprint = none ∧ c'.fingerprint = some "global") ∨
          (c.fingerprint = some "global" ∧ c'.fingerprint = none))) ∧
    (p.scope ≠ .global → ∀ (policyName ns : String) (material : V) (letters : Set Char),
      (∀ c c' : CacheContext, c.WrittenIn letters → c'.WrittenIn letters → ∀ k,
        CacheService.key cfg.lib policyName ns material c p = .ok k →
        CacheService.key cfg.lib policyName ns material c' p = .ok k → c.Agree p.scope c') ↔
        '\x1f' ∉ letters) ∧
    (∀ letters : Set Char,
      (∀ x x' : ToolContext, x.WrittenIn letters → x'.WrittenIn letters →
        ∀ (definition definition' : ToolDefinition V) (arguments arguments' : Dict String V)
          (k : String),
        CacheService.key cfg.lib "tool_results" "tool.result"
          (ToolExecutor.cacheMaterial cfg definition arguments) (ToolExecutor.cacheContext x) p =
            .ok k →
        CacheService.key cfg.lib "tool_results" "tool.result"
          (ToolExecutor.cacheMaterial cfg definition' arguments') (ToolExecutor.cacheContext x') p =
            .ok k →
        x.permissions = x'.permissions) ↔
        p.scope = .session ∨ (',' ∉ letters ∧ if p.scope = .global then
          ¬ ∀ c ∈ "global".toList, c ∈ letters else '\x1f' ∉ letters)) ∧
    ∀ x : ToolContext, ToolExecutor.cacheContext { x with permissions := {""} } =
      ToolExecutor.cacheContext { x with permissions := ∅ } :=
  ⟨fun hp => global_agree_iff hinj hhex hp, fun hp => scoped_agree_iff hinj hhex hp,
    ToolExecutor.permissions_eq_iff cfg hinj hhex p, ToolExecutor.cacheContext_empty⟩

namespace Sample

/-- Digests of zeros, one for each text. -/
def zeros (s : String) : String :=
  String.ofList (List.replicate (Encodable.encode (s.toList.map Char.toNat)) '0')

/-- The wiring with these digests. -/
def digesting : Config String := { lib := { Lib.text with digest := zeros } }

theorem digesting_injective : Function.Injective digesting.lib.digest := by
  intro s s' h
  have hlen := congrArg (fun s => s.toList.length) h
  simp only [digesting, zeros, String.toList_ofList, List.length_replicate] at hlen
  have hmap := Encodable.encode_injective hlen
  exact String.toList_inj.1 (List.map_injective_iff.2 (fun _ _ => Char.toNat_inj.1) hmap)

theorem digesting_hex (s : String) : ':' ∉ (digesting.lib.digest s).toList := by
  simp only [digesting, zeros, String.toList_ofList]
  intro h
  exact absurd (List.eq_of_mem_replicate h) (by decide)

end Sample

/-- Two tenants without separators in their ids have no key in common. -/
theorem cache_keys_isolate_tenants :
    CacheService.key Sample.digesting.lib "policy" "namespace" "material"
        ⟨some "acme", none, none, none, none⟩ {} ≠
      CacheService.key Sample.digesting.lib "policy" "namespace" "material"
        ⟨some "globex", none, none, none, none⟩ {} := by
  obtain ⟨-, hscoped, -, -⟩ := cache_keys_isolate Sample.digesting Sample.digesting_injective
    Sample.digesting_hex {}
  intro heq
  have hk : CacheService.key Sample.digesting.lib "policy" "namespace" "material"
      ⟨some "acme", none, none, none, none⟩ {} = .ok _ :=
    CacheService.key_eq_ok.2 ⟨"acme", by decide +kernel, rfl⟩
  have hagree := (hscoped (by decide) "policy" "namespace" "material" {x | x ≠ '\x1f'}).2
    (by simp) _ _ ?_ ?_ _ hk (heq.symm.trans hk)
  · exact absurd (hagree.tenant (by decide)) (by decide)
  · rintro s (hs | hs | hs | hs | hs) <;> cases hs
    rintro x hx rfl
    exact absurd hx (by decide)
  · rintro s (hs | hs | hs | hs | hs) <;> cases hs
    rintro x hx rfl
    exact absurd hx (by decide)

/-- A separator in a tenant id reads as the fingerprint after it, and a comma in a permission as
    two permissions. -/
theorem cache_keys_collide :
    (¬ ∀ cfg : Config String, Function.Injective cfg.lib.digest →
      (∀ s, ':' ∉ (cfg.lib.digest s).toList) → ∀ (p : CachePolicy) (policyName ns material : String)
        (c c' : CacheContext) (k : String),
        CacheService.key cfg.lib policyName ns material c p = .ok k →
        CacheService.key cfg.lib policyName ns material c' p = .ok k → c.Agree p.scope c') ∧
    ¬ ∀ cfg : Config String, Function.Injective cfg.lib.digest →
      (∀ s, ':' ∉ (cfg.lib.digest s).toList) → ∀ (p : CachePolicy) (x x' : ToolContext)
        (definition : ToolDefinition String) (arguments : Dict String String) (k : String),
        CacheService.key cfg.lib "tool_results" "tool.result"
          (ToolExecutor.cacheMaterial cfg definition arguments) (ToolExecutor.cacheContext x) p =
            .ok k →
        CacheService.key cfg.lib "tool_results" "tool.result"
          (ToolExecutor.cacheMaterial cfg definition arguments) (ToolExecutor.cacheContext x') p =
            .ok k →
        x.permissions = x'.permissions := by
  constructor
  · intro h
    have hk : CacheService.key Sample.digesting.lib "policy" "namespace" "material"
        ⟨some "a", none, none, none, some "b"⟩ {} = .ok _ :=
      CacheService.key_eq_ok.2 ⟨"a\x1fb", by decide +kernel, rfl⟩
    have hk' : CacheService.key Sample.digesting.lib "policy" "namespace" "material"
        ⟨some "a\x1fb", none, none, none, none⟩ {} = .ok _ :=
      CacheService.key_eq_ok.2 ⟨"a\x1fb", by decide +kernel, rfl⟩
    exact absurd (h Sample.digesting Sample.digesting_injective Sample.digesting_hex {} _ _ _ _ _ _
      hk hk').fingerprint (by decide)
  · intro h
    let two : ToolContext := ToolExecutor.callOf "acme" "user" "run" {"read", "write"}
    let one : ToolContext := ToolExecutor.callOf "acme" "user" "run" {"read,write"}
    have hsorted : ",".intercalate (sorted {"read", "write"}) =
        ",".intercalate (sorted {"read,write"}) := by
      rw [sorted, sorted, Finset.sort_singleton,
        Finset.sort_insert _ (by decide) (by decide), Finset.sort_singleton]
      decide
    have hcontext : ToolExecutor.cacheContext two = ToolExecutor.cacheContext one := by
      simp only [ToolExecutor.cacheContext, two, one, ToolExecutor.callOf, hsorted]
    have hk : CacheService.key Sample.digesting.lib "tool_results" "tool.result"
        (ToolExecutor.cacheMaterial Sample.digesting
          ⟨"search", "1", "", [], [], ∅, .none, .idempotent, 30, {}, 10, 1⟩ [])
        (ToolExecutor.cacheContext one) {} = .ok _ :=
      CacheService.key_eq_ok.2 ⟨"acme\x1fread,write", by decide +kernel, rfl⟩
    exact absurd (h Sample.digesting Sample.digesting_injective Sample.digesting_hex {} two one _ _
      _ (hcontext ▸ hk) hk) (by decide)

end TracciaRuntime
