/-!
# Channel configuration

How long local edits are gathered before they are sent, and how the delay between attempts to catch up
grows after failures.  All delays are in milliseconds.
-/

namespace Coedit

/-- Exponential backoff between attempts. -/
structure RetryPolicy where
  /-- The delay before the first attempt. -/
  initialDelay : Nat := 500
  /-- No delay is longer. -/
  maxDelay : Nat := 30000
  /-- The factor from one delay to the next; at least one. -/
  multiplier : Nat := 2
  deriving DecidableEq

/-- The largest delay that can be told. -/
def delayLimit : Nat := UInt64.size - 1

/-- `b ^ n`, but at most `delayLimit`, by squaring. -/
def cappedPower (b : Nat) (n : Nat) : Nat :=
  if n = 0 then 1
  else
    let half := cappedPower b (n / 2)
    let square := min (half * half) delayLimit
    if n % 2 = 0 then square else min (square * b) delayLimit
termination_by n

private theorem min_mul_min (a b m : Nat) (hb : 0 < b) : min (min a m * b) m = min (a * b) m := by
  by_cases h : a ≤ m
  · rw [Nat.min_eq_left h]
  · have h1 : m ≤ m * b := Nat.le_mul_of_pos_right m hb
    have h2 : m * b ≤ a * b := Nat.mul_le_mul_right b (by omega)
    rw [Nat.min_eq_right (by omega : m ≤ a), Nat.min_eq_right h1, Nat.min_eq_right (Nat.le_trans h1 h2)]

/-- Capping at every step gives the capped power. -/
theorem cappedPower_eq {b : Nat} (hb : 0 < b) (n : Nat) : cappedPower b n = min (b.pow n) delayLimit := by
  simp only [Nat.pow_eq]
  induction n using Nat.strongRecOn with
  | ind n ih =>
    rw [cappedPower]
    split
    next h => subst h; rfl
    next h =>
      have hpos : 0 < b ^ (n / 2) := Nat.pow_pos hb
      have hlim : 0 < min (b ^ (n / 2)) delayLimit := by
        have : 0 < delayLimit := by decide
        omega
      have hsq : min (min (b ^ (n / 2)) delayLimit * min (b ^ (n / 2)) delayLimit) delayLimit
          = min (b ^ (n / 2) * b ^ (n / 2)) delayLimit := by
        rw [min_mul_min _ _ _ hlim, Nat.mul_comm, min_mul_min _ _ _ hpos]
      simp only [ih (n / 2) (by omega), hsq]
      have hn := Nat.div_add_mod n 2
      split
      next he =>
        rw [← Nat.pow_add, show n / 2 + n / 2 = n by omega]
      next ho =>
        rw [min_mul_min _ _ _ hb, ← Nat.pow_add, ← Nat.pow_succ, show (n / 2 + n / 2).succ = n by omega]

namespace RetryPolicy

/-- The delay before attempt number `attempt`, counted from zero. -/
def delay (p : RetryPolicy) (attempt : Nat) : Nat :=
  min (min (p.initialDelay * cappedPower (max p.multiplier 1) attempt) delayLimit) p.maxDelay

end RetryPolicy

structure Config where
  /-- How long local edits are gathered before they are sent. -/
  sendDelay : Nat := 0
  retry : RetryPolicy := {}
  deriving DecidableEq

end Coedit
