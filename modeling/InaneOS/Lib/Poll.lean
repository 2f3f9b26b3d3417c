import Mathlib.Logic.Function.Iterate
import Mathlib.Tactic.Common

/-!
# Polling a device

A driver that waits for a device reads a register again and again, at most a given
number of times, and every read is also a step of the device. `poll` is the loop

    while (!good(read()) && budget--) ;
    return budget > 0;

with the state of the device passed along. What it does depends on the first read that
is good only: `poll_good` when there is one in time, `poll_late` when there is none.
-/

namespace InaneOS.Lib

variable {σ α : Type} (read : σ → α × σ) (good : α → Bool)

/-- The loop: whether the budget was not used up, and the device after the last read. -/
def poll : Nat → σ → Bool × σ
  | 0, s => (false, (read s).2)
  | n + 1, s => if good (read s).1 then (true, (read s).2) else poll n (read s).2

variable {read good}

/-- The first good read is read number `n`, and there is budget left for it. -/
theorem poll_good : ∀ {n budget : Nat} {s : σ}, n < budget →
    (∀ k < n, good (read ((Prod.snd ∘ read)^[k] s)).1 = false) →
    good (read ((Prod.snd ∘ read)^[n] s)).1 = true →
    poll read good budget s = (true, (Prod.snd ∘ read)^[n + 1] s)
  | 0, budget + 1, s, _, _, hgood => by
    rw [poll, if_pos (by simpa using hgood)]
    rfl
  | n + 1, budget + 1, s, hn, hbad, hgood => by
    have hfirst : good (read s).1 = false := hbad 0 (Nat.succ_pos n)
    rw [poll, if_neg (by rw [hfirst]; simp)]
    exact poll_good (Nat.lt_of_succ_lt_succ hn)
      (fun k hk => hbad (k + 1) (Nat.succ_lt_succ hk)) hgood

/-- No good read comes in time. -/
theorem poll_late : ∀ {budget : Nat} {s : σ},
    (∀ k < budget, good (read ((Prod.snd ∘ read)^[k] s)).1 = false) →
    poll read good budget s = (false, (Prod.snd ∘ read)^[budget + 1] s)
  | 0, _, _ => rfl
  | budget + 1, s, hbad => by
    have hfirst : good (read s).1 = false := hbad 0 (Nat.succ_pos budget)
    rw [poll, if_neg (by rw [hfirst]; simp)]
    exact poll_late fun k hk => hbad (k + 1) (Nat.succ_lt_succ hk)

end InaneOS.Lib
