/-
  Leases on a number of things, each of which may be handed out a limited number of times.

  * `Slot`: what is known of a thing: whether it waits, is held under a lease or is closed,
    how often it has been handed out, and how often it may be;
  * `Step`: the moves of the ledger of all slots, labelled with what the holders see of them;
  * `taken`, `expiry`: how often a thing has been handed out and when its lease ends, told
    from the labels alone;
  * `Run.agrees`: the slots say what the labels say; `Run.taken_le`, `Run.take_lapsed`,
    `Run.closed_stays`: the safety of leases.

  The labels of a run are listed with the latest first.
-/
import Mathlib.Logic.Function.Basic
import Mathlib.Order.Basic

namespace Lease

inductive Phase (W T : Type) where
  | waiting
  | held (owner : W) (expiry : T)
  | closed

structure Slot (W T : Type) where
  phase : Phase W T := .waiting
  taken : Int := 0
  limit : Int

inductive Event (I W T : Type) where
  | put (i : I) (limit : Int)
  | take (i : I) (w : W) (now expiry : T)
  | extend (i : I) (expiry : T)
  /-- the holder is done with the thing, or gives it back for another time -/
  | report (i : I) (again : Bool)
  | idle

variable {I W T : Type}

namespace Phase

/-- When the lease ends. -/
def expiry : Phase W T → Option T
  | held _ e => some e
  | _ => none

end Phase

namespace Event

/-- The thing that moves. -/
def subject : Event I W T → Option I
  | put i _ | take i _ _ _ | extend i _ | report i _ => some i
  | idle => none

end Event

/-! ## What the labels say -/

section
variable [DecidableEq I]

def taken (i : I) : List (Event I W T) → Int
  | [] => 0
  | .take j _ _ _ :: evs => (if j = i then 1 else 0) + taken i evs
  | _ :: evs => taken i evs

def expiry (i : I) : List (Event I W T) → Option T
  | [] => none
  | .take j _ _ e :: evs | .extend j e :: evs => if j = i then some e else expiry i evs
  | .report j _ :: evs => if j = i then none else expiry i evs
  | _ :: evs => expiry i evs

end

/-! ## The ledger -/

abbrev Ledger (I W T : Type) := I → Option (Slot W T)

namespace Slot
variable [LE T]

/-- The thing may be handed out: it waits or its lease has lapsed, and it has not been handed
    out too often. -/
def Free (now : T) (s : Slot W T) : Prop :=
  (s.phase = .waiting ∨ ∃ w e, s.phase = .held w e ∧ e ≤ now) ∧ s.taken < s.limit

end Slot

section
variable [DecidableEq I] [LE T]

inductive Step (L : Ledger I W T) : Event I W T → Ledger I W T → Prop
  | put {i : I} {m : Int} : L i = none → 0 < m →
      Step L (.put i m) (Function.update L i (some { limit := m }))
  | take {i : I} {w : W} {t e : T} {s : Slot W T} : L i = some s → s.Free t →
      Step L (.take i w t e)
        (Function.update L i (some { s with phase := .held w e, taken := s.taken + 1 }))
  | extend {i : I} {w : W} {e e' : T} {s : Slot W T} : L i = some s → s.phase = .held w e' →
      Step L (.extend i e) (Function.update L i (some { s with phase := .held w e }))
  | report {i : I} {again : Bool} {w : W} {e : T} {s : Slot W T} : L i = some s →
      s.phase = .held w e →
      Step L (.report i again) (Function.update L i (some { s with
        phase := if again ∧ s.taken < s.limit then .waiting else .closed }))
  | idle : Step L .idle L

inductive Run : List (Event I W T) → Ledger I W T → Prop
  | nil : Run [] fun _ => none
  | cons {evs : List (Event I W T)} {L L' : Ledger I W T} {ev : Event I W T} :
      Run evs L → Step L ev L' → Run (ev :: evs) L'

/-- The slot has been handed out at most `limit` times, less than that while it waits. -/
structure Slot.Sound (s : Slot W T) : Prop where
  taken_le : s.taken ≤ s.limit
  waiting : s.phase = .waiting → s.taken < s.limit

/-- A slot says what the labels say. -/
structure Slot.Agrees (evs : List (Event I W T)) (i : I) (s : Slot W T) : Prop where
  taken : s.taken = Lease.taken i evs
  expiry : s.phase.expiry = Lease.expiry i evs

theorem Step.frame {L L' : Ledger I W T} {ev : Event I W T} (h : Step L ev L') {j : I}
    (hj : ev.subject ≠ some j) : L' j = L j := by
  cases h with
  | idle => rfl
  | put | take | extend | report =>
    exact Function.update_of_ne (fun h => hj (congrArg some h.symm)) _ _

/-- The labels say nothing new of the other things. -/
theorem taken_cons_of_ne {ev : Event I W T} {i : I} (hi : ev.subject ≠ some i)
    (evs : List (Event I W T)) : Lease.taken i (ev :: evs) = Lease.taken i evs := by
  cases ev with
  | take j w t e =>
    have hne : j ≠ i := fun h => hi (congrArg some h)
    simp [taken, hne]
  | _ => rfl

theorem expiry_cons_of_ne {ev : Event I W T} {i : I} (hi : ev.subject ≠ some i)
    (evs : List (Event I W T)) : Lease.expiry i (ev :: evs) = Lease.expiry i evs := by
  cases ev with
  | put j m => rfl
  | idle => rfl
  | take j w t e =>
    have hne : j ≠ i := fun h => hi (congrArg some h)
    simp [expiry, hne]
  | extend j e =>
    have hne : j ≠ i := fun h => hi (congrArg some h)
    simp [expiry, hne]
  | report j again =>
    have hne : j ≠ i := fun h => hi (congrArg some h)
    simp [expiry, hne]

/-! ## Runs -/

theorem Step.sound {L L' : Ledger I W T} {ev : Event I W T} (h : Step L ev L')
    (hL : ∀ i s, L i = some s → s.Sound) : ∀ i s, L' i = some s → s.Sound := by
  intro i s' hs'
  by_cases hi : ev.subject = some i
  case neg => rw [h.frame hi] at hs'; exact hL i s' hs'
  cases h with
  | idle => cases hi
  | put hn hm =>
    cases hi
    rw [Function.update_self] at hs'
    cases hs'
    exact ⟨Int.le_of_lt hm, fun _ => hm⟩
  | take hs hf =>
    cases hi
    rw [Function.update_self] at hs'
    cases hs'
    exact ⟨hf.2, nofun⟩
  | extend hs hp =>
    cases hi
    rw [Function.update_self] at hs'
    cases hs'
    exact ⟨(hL _ _ hs).taken_le, nofun⟩
  | @report _ again _ _ s hs hp =>
    cases hi
    rw [Function.update_self] at hs'
    cases hs'
    refine ⟨(hL _ _ hs).taken_le, fun hw => ?_⟩
    dsimp only at hw
    split at hw
    · rename_i hc; exact hc.2
    · cases hw

theorem Run.sound {evs : List (Event I W T)} {L : Ledger I W T} (h : Run evs L) :
    ∀ i s, L i = some s → s.Sound := by
  induction h with
  | nil => nofun
  | cons _ hs ih => exact hs.sound ih

/-- Nothing has been said of what is not in the ledger. -/
theorem Run.silent {evs : List (Event I W T)} {L : Ledger I W T} (h : Run evs L) {i : I}
    (hi : L i = none) : taken i evs = 0 ∧ expiry i evs = none := by
  induction h with
  | nil => exact ⟨rfl, rfl⟩
  | @cons evs L L' ev _ hs ih =>
    by_cases hsub : ev.subject = some i
    · cases hs with
      | idle => cases hsub
      | put | take | extend | report =>
        cases hsub
        rw [Function.update_self] at hi
        cases hi
    · rw [hs.frame hsub] at hi
      rw [taken_cons_of_ne hsub, expiry_cons_of_ne hsub]
      exact ih hi

/-- **The slots say what the labels say.** -/
theorem Run.agrees {evs : List (Event I W T)} {L : Ledger I W T} (h : Run evs L) {i : I}
    {s : Slot W T} (hi : L i = some s) : s.Agrees evs i := by
  induction h generalizing s with
  | nil => cases hi
  | @cons evs L L' ev hrun hs ih =>
    by_cases hsub : ev.subject = some i
    case neg =>
      rw [hs.frame hsub] at hi
      obtain ⟨ht, he⟩ := ih hi
      exact ⟨ht.trans (taken_cons_of_ne hsub _).symm, he.trans (expiry_cons_of_ne hsub _).symm⟩
    cases hs with
    | idle => cases hsub
    | put hn hm =>
      cases hsub
      rw [Function.update_self] at hi
      cases hi
      obtain ⟨ht, he⟩ := hrun.silent hn
      exact ⟨ht.symm, he.symm⟩
    | take hL hf =>
      cases hsub
      rw [Function.update_self] at hi
      cases hi
      refine ⟨?_, by simp [Phase.expiry, expiry]⟩
      have ht := (ih hL).taken
      simp only [taken, if_true, ← ht]
      omega
    | extend hL hp =>
      cases hsub
      rw [Function.update_self] at hi
      cases hi
      exact ⟨(ih hL).taken, by simp [Phase.expiry, expiry]⟩
    | @report _ again _ _ s hL hp =>
      cases hsub
      rw [Function.update_self] at hi
      cases hi
      refine ⟨(ih hL).taken, ?_⟩
      simp only [expiry, if_true]
      split <;> rfl

/-- **Nothing is handed out more often than it may be.** -/
theorem Run.taken_le {evs : List (Event I W T)} {L : Ledger I W T} (h : Run evs L) {i : I}
    {s : Slot W T} (hi : L i = some s) : taken i evs ≤ s.limit := by
  rw [← (h.agrees hi).taken]
  exact (h.sound i s hi).taken_le

/-- **What is handed out is under no lease that still runs.** -/
theorem Run.take_lapsed {evs : List (Event I W T)} {L L' : Ledger I W T} {i : I} {w : W}
    {t e : T} (h : Run evs L) (hs : Step L (.take i w t e) L') {e' : T}
    (he : expiry i evs = some e') : e' ≤ t := by
  cases hs with
  | take hL hf =>
    rw [← (h.agrees hL).expiry] at he
    rcases hf.1 with hw | ⟨w', e'', hp, hle⟩
    · rw [hw] at he; cases he
    · rw [hp] at he; cases he; exact hle

/-- **A closed thing does not move.** -/
theorem Step.closed_still {L L' : Ledger I W T} {ev : Event I W T} (h : Step L ev L') {i : I}
    {s : Slot W T} (hi : L i = some s) (hc : s.phase = .closed) : ev.subject ≠ some i := by
  intro hsub
  cases h with
  | idle => cases hsub
  | put hn _ => cases hsub; rw [hn] at hi; cases hi
  | take hL hf =>
    cases hsub
    rw [hL] at hi
    cases hi
    rcases hf.1 with hw | ⟨w, e, hp, -⟩
    · rw [hw] at hc; cases hc
    · rw [hp] at hc; cases hc
  | extend hL hp | report hL hp =>
    cases hsub
    rw [hL] at hi
    cases hi
    rw [hp] at hc; cases hc

/-- A thing that is not closed and whose lease, if any, has lapsed is free but for the number of
    times it has been handed out. -/
theorem Slot.free_iff {s : Slot W T} {t : T} (hc : s.phase ≠ .closed)
    (hl : ∀ e, s.phase.expiry = some e → e ≤ t) : s.Free t ↔ s.taken < s.limit := by
  refine ⟨fun h => h.2, fun h => ⟨?_, h⟩⟩
  match hp : s.phase with
  | .waiting => exact .inl rfl
  | .held w e => exact .inr ⟨w, e, rfl, hl e (by rw [hp]; rfl)⟩
  | .closed => exact absurd hp hc

/-- **A thing on its last lease moves only when its holder says so.** -/
theorem Step.exhausted_still {L L' : Ledger I W T} {ev : Event I W T} (h : Step L ev L') {i : I}
    {s : Slot W T} (hi : L i = some s) (hx : s.limit ≤ s.taken)
    (hev : ∀ e, ev ≠ .extend i e) (hev' : ∀ again, ev ≠ .report i again) :
    ev.subject ≠ some i := by
  intro hsub
  cases h with
  | idle => cases hsub
  | put hn _ => cases hsub; rw [hn] at hi; cases hi
  | take hL hf =>
    cases hsub
    rw [hL] at hi
    cases hi
    exact absurd hf.2 (Int.not_lt.2 hx)
  | extend => cases hsub; exact hev _ rfl
  | report => cases hsub; exact hev' _ rfl

end

end Lease
