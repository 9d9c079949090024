/-
  The bound of the rate limiter.

  * `Limiting.Keeps`: the invariant; the grants that are not in the deque any more are older than
    the window;
  * `Limiting.bounded`: times less than a window apart are the times of at most `limit` grants.
-/
import TracciaRuntime.Models.RateLimiter
import Mathlib.Data.List.TakeWhile
import Mathlib.Tactic.Linarith

namespace TracciaRuntime

variable {limiter : SlidingWindowRateLimiter}

namespace SlidingWindowRateLimiter

/-- What a turn does: it takes old timestamps from the front, and adds the time of a grant. -/
theorem turn_cases (limiter : SlidingWindowRateLimiter) (now : Time) (timestamps : List Time) :
    ∃ old kept, timestamps = old ++ kept ∧ (∀ t ∈ old, t ≤ now - limiter.windowSeconds) ∧
      (kept.length < limiter.limit ∧
          limiter.turn now timestamps = (.granted now, kept ++ [now]) ∨
        ∃ delay, limiter.turn now timestamps = (.sleeping delay, kept)) := by
  refine ⟨timestamps.takeWhile fun t => t ≤ now - limiter.windowSeconds,
    timestamps.dropWhile fun t => t ≤ now - limiter.windowSeconds,
    List.takeWhile_append_dropWhile.symm, fun t ht => by simpa using List.mem_takeWhile_imp ht, ?_⟩
  unfold turn
  dsimp only
  split_ifs with h
  · exact .inl ⟨h, rfl⟩
  · exact .inr ⟨_, rfl⟩

end SlidingWindowRateLimiter

namespace Limiting

variable {s : Limiting}

/-! ## Grants -/

theorem grants_append (s : Limiting) (timestamps : List Time) (c : AcquirePhase) :
    grants { s with timestamps, calls := s.calls ++ [c] } =
      s.grants ++ grants { s with calls := [c] } := by
  simp [grants]

/-- A sleeping call is none of those that have returned. -/
theorem grants_set {i : Nat} {delay : ℚ} (h : s.calls[i]? = some (.sleeping delay))
    (timestamps : List Time) (c : AcquirePhase) :
    (grants { s with timestamps, calls := s.calls.set i c }).Perm
      (s.grants ++ grants { s with calls := [c] }) := by
  obtain ⟨hi, hget⟩ := List.getElem?_eq_some_iff.1 h
  have hcalls : s.calls = s.calls.take i ++ .sleeping delay :: s.calls.drop (i + 1) := by
    rw [← hget, ← List.drop_eq_getElem_cons hi, List.take_append_drop]
  have hset : s.calls.set i c = s.calls.take i ++ c :: s.calls.drop (i + 1) :=
    List.set_eq_take_append_cons_drop.trans (if_pos hi)
  unfold grants
  rw [hset]
  conv => rhs; rw [hcalls]
  cases c with
  | granted now =>
    simp only [List.filterMap_append, List.filterMap_cons, List.filterMap_nil, List.append_assoc]
    exact List.Perm.append_left _ (List.perm_append_singleton _ _).symm
  | _ =>
    simp only [List.filterMap_append, List.filterMap_cons, List.filterMap_nil, List.append_nil]
    exact .refl _

/-! ## The invariant -/

/-- The grants are those in the deque and older ones. -/
def Keeps (limiter : SlidingWindowRateLimiter) (s : Limiting) : Prop :=
  ∃ old, s.grants.Perm (old ++ s.timestamps) ∧ ∀ t ∈ old, t ≤ s.clock - limiter.windowSeconds

/-- Any two times are less than a window apart. -/
def Narrow (limiter : SlidingWindowRateLimiter) (p : Time → Bool) : Prop :=
  ∀ t u, p t = true → p u = true → t < u + limiter.windowSeconds

/-- So are at most `limit` grants. -/
def Bounded (limiter : SlidingWindowRateLimiter) (s : Limiting) : Prop :=
  ∀ p, Narrow limiter p → s.grants.countP p ≤ limiter.limit

/-- A turn of a call, by what it does to the grants. -/
theorem turned {s s' : Limiting} (hclock : s'.clock = s.clock)
    (htimestamps : s'.timestamps = (limiter.turn s.clock s.timestamps).2)
    (hgrants : s'.grants.Perm
      (s.grants ++ grants { s with calls := [(limiter.turn s.clock s.timestamps).1] }))
    (hk : s.Keeps limiter) (hb : s.Bounded limiter) : s'.Keeps limiter ∧ s'.Bounded limiter := by
  obtain ⟨old, hperm, hold⟩ := hk
  obtain ⟨old', kept, heq, hold', hturn⟩ := limiter.turn_cases s.clock s.timestamps
  rw [heq, ← List.append_assoc] at hperm
  have holds : ∀ t ∈ old ++ old', t ≤ s.clock - limiter.windowSeconds := by
    intro t ht
    rcases List.mem_append.1 ht with ht | ht
    · exact hold t ht
    · exact hold' t ht
  rcases hturn with ⟨hlen, hturn⟩ | ⟨delay, hturn⟩
  · rw [hturn] at hgrants htimestamps
    have hnew : s'.grants.Perm (s.grants ++ [s.clock]) := hgrants
    refine ⟨⟨old ++ old', ?_, by rwa [hclock]⟩, fun p hp => ?_⟩
    · rw [htimestamps, ← List.append_assoc]
      exact hnew.trans (hperm.append_right _)
    · rw [hnew.countP_eq, List.countP_append]
      by_cases hnow : p s.clock = true
      · -- the others are in the window that ends now, hence still in the deque
        have hnone : (old ++ old').countP p = 0 := by
          refine List.countP_eq_zero.2 fun t ht htp => ?_
          have h₁ := holds t ht
          have h₂ := hp _ _ hnow htp
          linarith
        rw [hperm.countP_eq, List.countP_append, hnone]
        have hkept := List.countP_le_length (p := p) (l := kept)
        simp only [List.countP_singleton, hnow, if_true]
        omega
      · have h := hb p hp
        simp only [List.countP_singleton, hnow]
        simpa using h
  · rw [hturn] at hgrants htimestamps
    have hnew : s'.grants.Perm s.grants := by
      have h : s'.grants.Perm (s.grants ++ []) := hgrants
      rwa [List.append_nil] at h
    refine ⟨⟨old ++ old', ?_, by rwa [hclock]⟩, fun p hp => ?_⟩
    · rw [htimestamps]
      exact hnew.trans hperm
    · rw [hnew.countP_eq]
      exact hb p hp

theorem Keeps.wait (h : s.Keeps limiter) (elapsed : ℚ≥0) : (s.wait elapsed).Keeps limiter := by
  obtain ⟨old, hperm, hold⟩ := h
  refine ⟨old, hperm, fun t ht => ?_⟩
  have h₁ := hold t ht
  have h₂ : (0 : ℚ) ≤ elapsed := elapsed.2
  have h₃ : (s.wait elapsed).clock = s.clock + elapsed := rfl
  linarith

theorem step_keeps (a : LimiterAct) (hk : s.Keeps limiter) (hb : s.Bounded limiter) :
    (s.step limiter a).Keeps limiter ∧ (s.step limiter a).Bounded limiter := by
  cases a with
  | acquire =>
    exact turned (s := s) rfl rfl (List.Perm.of_eq (grants_append s _ _)) hk hb
  | wake i =>
    simp only [step]
    split
    · rename_i delay h
      exact turned (s := s) rfl rfl (grants_set h _ _) hk hb
    · exact ⟨hk, hb⟩
  | cancel i =>
    simp only [step]
    split
    · rename_i delay h
      have hsame := grants_set h s.timestamps .cancelled
      have hnone : grants { s with calls := [.cancelled] } = [] := rfl
      rw [hnone, List.append_nil] at hsame
      obtain ⟨old, hperm, hold⟩ := hk
      exact ⟨⟨old, hsame.trans hperm, hold⟩, fun p hp => by rw [hsame.countP_eq]; exact hb p hp⟩
    · exact ⟨hk, hb⟩

/-- Every run keeps the invariant and the bound. -/
theorem after_keeps (limiter : SlidingWindowRateLimiter) (start : Time)
    (past : List (ℚ≥0 × LimiterAct)) :
    (after limiter start past).Keeps limiter ∧ (after limiter start past).Bounded limiter := by
  induction past with
  | nil => exact ⟨⟨[], .refl _, fun t ht => by cases ht⟩, fun p _ => Nat.zero_le _⟩
  | cons x past ih => exact step_keeps x.2 (ih.1.wait x.1) ih.2

/-- **The sliding window.**  Whatever calls there are and however the time passes, every half-open
    interval as long as the window has at most `limit` grants. -/
theorem window_bounded (limiter : SlidingWindowRateLimiter) (start : Time)
    (past : List (ℚ≥0 × LimiterAct)) (a : Time) :
    (after limiter start past).grants.countP
        (fun t => a ≤ t ∧ t < a + limiter.windowSeconds) ≤ limiter.limit ∧
      (after limiter start past).grants.countP
        (fun t => a < t ∧ t ≤ a + limiter.windowSeconds) ≤ limiter.limit := by
  have hb := (after_keeps limiter start past).2
  constructor
  · refine hb _ fun t u ht hu => ?_
    simp only [decide_eq_true_eq] at ht hu
    linarith
  · refine hb _ fun t u ht hu => ?_
    simp only [decide_eq_true_eq] at ht hu
    linarith

end Limiting

end TracciaRuntime
