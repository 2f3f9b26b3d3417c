import Mathlib.Data.Nat.ModEq

/-!
# Rings

A ring of `n` slots, read from slot `a` on: `window buf n a k` are the contents of
`k` slots in order, wrapping at `n`. A queue in a ring is such a window; putting
an element in the slot behind it (`window_put`) and taking the first one out
(`window_succ_left`) are the two things that happen to it. The slot behind the
window is not one of it as long as the ring is not full (`slot_ne`).
-/

namespace InaneOS.Lib

variable {α : Type}

/-- The `k` slots from slot `a` on. -/
def window (buf : Nat → α) (n a k : Nat) : List α := (List.range k).map fun i => buf ((a + i) % n)

theorem window_zero (buf : Nat → α) (n a : Nat) : window buf n a 0 = [] := rfl

theorem window_length (buf : Nat → α) (n a k : Nat) : (window buf n a k).length = k := by
  rw [window, List.length_map, List.length_range]

/-- The window with the slot behind it. -/
theorem window_succ (buf : Nat → α) (n a k : Nat) :
    window buf n a (k + 1) = window buf n a k ++ [buf ((a + k) % n)] := by
  rw [window, List.range_succ, List.map_append]
  rfl

/-- The first slot of a window and the rest. -/
theorem window_succ_left (buf : Nat → α) (n a k : Nat) :
    window buf n a (k + 1) = buf (a % n) :: window buf n ((a + 1) % n) k := by
  rw [window, List.range_succ_eq_map, List.map_cons, List.map_map]
  refine congrArg _ (List.map_congr_left fun i _ => ?_)
  rw [Function.comp_apply, Nat.mod_add_mod]
  exact congrArg (fun j => buf (j % n)) (by omega)

theorem window_congr {buf buf' : Nat → α} {n a k : Nat}
    (h : ∀ i < k, buf ((a + i) % n) = buf' ((a + i) % n)) :
    window buf n a k = window buf' n a k :=
  List.map_congr_left fun i hi => h i (List.mem_range.mp hi)

/-- Different offsets below the size of the ring are different slots. -/
theorem slot_ne {n a i j : Nat} (hij : i < j) (hj : j < n) : (a + i) % n ≠ (a + j) % n := by
  intro h
  have hmod : i % n = j % n := Nat.ModEq.add_left_cancel' a h
  rw [Nat.mod_eq_of_lt (by omega), Nat.mod_eq_of_lt hj] at hmod
  omega

/-- The slot behind the window after one more element. -/
theorem slot_succ (n a k : Nat) : ((a + k) % n + 1) % n = (a + (k + 1)) % n := by
  rw [Nat.mod_add_mod, Nat.add_assoc]

/-- The slot behind the window does not move when the first element is taken out. -/
theorem slot_pop (n a k : Nat) : ((a + 1) % n + k) % n = (a + (k + 1)) % n := by
  rw [Nat.mod_add_mod]
  exact congrArg (· % n) (by omega)

end InaneOS.Lib
