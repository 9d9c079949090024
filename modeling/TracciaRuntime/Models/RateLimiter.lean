/-
  Traccia Runtime formalization — the rate limiter of the router (`models/base.py`).

  What a call does between two sleeps it does under the lock and without an `await`, so that it
  is one step, at one reading of the clock, and the lock is always free.
-/
import TracciaRuntime.Types
import Mathlib.Data.NNRat.Defs

namespace TracciaRuntime

structure SlidingWindowRateLimiter where
  limit : Nat
  limit_pos : 1 ≤ limit := by decide
  windowSeconds : ℚ := 60
  windowSeconds_pos : 0 < windowSeconds := by decide

/-- Where a call of `acquire` is. -/
inductive AcquirePhase where
  | sleeping (delay : ℚ)
  /-- it has returned, at this reading of the clock -/
  | granted (now : Time)
  | cancelled
  deriving DecidableEq

inductive LimiterAct where
  /-- a call begins -/
  | acquire
  /-- the sleep of a call ends, in time or not -/
  | wake (i : Nat)
  | cancel (i : Nat)

/-- A limiter and the calls of its `acquire`. -/
structure Limiting where
  clock : Time
  timestamps : List Time := []
  calls : List AcquirePhase := []

namespace SlidingWindowRateLimiter
variable (limiter : SlidingWindowRateLimiter)

/-- A turn of `while True`: what becomes of the call and of the timestamps. -/
def turn (now : Time) (timestamps : List Time) : AcquirePhase × List Time :=
  let timestamps := timestamps.dropWhile fun t => t ≤ now - limiter.windowSeconds
  if timestamps.length < limiter.limit then (.granted now, timestamps ++ [now])
  else
    let delay := timestamps.headD 0 + limiter.windowSeconds - now
    (.sleeping (max (1 / 1000) delay), timestamps)

end SlidingWindowRateLimiter

namespace Limiting

def step (limiter : SlidingWindowRateLimiter) (s : Limiting) : LimiterAct → Limiting
  | .acquire =>
    let t := limiter.turn s.clock s.timestamps
    { s with timestamps := t.2, calls := s.calls ++ [t.1] }
  | .wake i =>
    match s.calls[i]? with
    | some (.sleeping _) =>
      let t := limiter.turn s.clock s.timestamps
      { s with timestamps := t.2, calls := s.calls.set i t.1 }
    | _ => s
  | .cancel i =>
    match s.calls[i]? with
    | some (.sleeping _) => { s with calls := s.calls.set i .cancelled }
    | _ => s

/-- The time passes. -/
def wait (s : Limiting) (elapsed : ℚ≥0) : Limiting := { s with clock := s.clock + elapsed }

/-- The limiter after the acts, each with the time that passes before it, the latest first. -/
def after (limiter : SlidingWindowRateLimiter) (start : Time) :
    List (ℚ≥0 × LimiterAct) → Limiting
  | [] => { clock := start }
  | (elapsed, a) :: past => ((after limiter start past).wait elapsed).step limiter a

/-- When the calls that have returned were let through. -/
def grants (s : Limiting) : List Time :=
  s.calls.filterMap fun c =>
    match c with
    | .granted now => some now
    | _ => none

end Limiting

end TracciaRuntime
