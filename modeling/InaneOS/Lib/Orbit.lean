import Mathlib.Data.Fintype.Pigeonhole
import Mathlib.Logic.Function.Iterate
import Mathlib.Tactic.Common

/-!
# Following links

A loop that follows links sees `next^[0] c`, `next^[1] c` and so on. Below a bound
it either leaves or comes back (`orbit_repeats`), and once it has come back it only
sees what it has seen (`orbit_all`). So whether it goes on for ever is decided by
finitely many places, a lead-in and a cycle (`orbit_forever_iff`).
-/

namespace InaneOS.Lib

/-- An orbit that stays below a bound repeats a place. -/
theorem orbit_repeats {next : Nat → Nat} {c N : Nat} (h : ∀ n, next^[n] c < N) :
    ∃ i j, i < j ∧ next^[i] c = next^[j] c := by
  obtain ⟨a, b, hab, he⟩ :=
    Finite.exists_ne_map_eq_of_infinite fun n => (⟨next^[n] c, h n⟩ : Fin N)
  have he : next^[a] c = next^[b] c := congrArg Fin.val he
  rcases Nat.lt_or_gt_of_ne hab with hlt | hgt
  · exact ⟨a, b, hlt, he⟩
  · exact ⟨b, a, hgt, he.symm⟩

section Cycle

variable {α : Type} {next : α → α} {c : α} {i j : Nat}

/-- Every place from the cycle's start on is one of the cycle. -/
theorem orbit_cycle (hij : i < j) (he : next^[i] c = next^[j] c) :
    ∀ n, i ≤ n → ∃ k, i ≤ k ∧ k < j ∧ next^[n] c = next^[k] c := by
  intro n
  induction n with
  | zero => exact fun h => ⟨0, h, by omega, rfl⟩
  | succ n ih =>
    intro hn
    by_cases hi : i = n + 1
    · exact ⟨n + 1, hn, by omega, rfl⟩
    · obtain ⟨k, hik, hkj, hk⟩ := ih (by omega)
      have hnext : next^[n + 1] c = next^[k + 1] c := by
        rw [Function.iterate_succ_apply', hk, Function.iterate_succ_apply']
      by_cases hlast : k + 1 = j
      · exact ⟨i, Nat.le_refl i, hij, by rw [hnext, hlast, he]⟩
      · exact ⟨k + 1, by omega, by omega, hnext⟩

/-- Going round once more. -/
theorem orbit_round (hij : i < j) (he : next^[i] c = next^[j] c) {n : Nat} (hn : i ≤ n) :
    next^[n + (j - i)] c = next^[n] c := by
  rw [show n + (j - i) = n - i + j by omega, Function.iterate_add_apply, ← he,
    ← Function.iterate_add_apply, show n - i + i = n by omega]

/-- What holds up to the place that comes back holds all the way. -/
theorem orbit_all (hij : i < j) (he : next^[i] c = next^[j] c) {P : α → Prop}
    (h : ∀ k < j, P (next^[k] c)) (n : Nat) : P (next^[n] c) := by
  rcases Nat.lt_or_ge n i with hn | hn
  · exact h n (by omega)
  · obtain ⟨k, -, hkj, hk⟩ := orbit_cycle hij he n hn
    rw [hk]
    exact h k hkj

end Cycle

/-- **When a loop goes on for ever**: it comes back to a place, and everywhere up to
there it goes on and stays below the bound. -/
theorem orbit_forever_iff {next : Nat → Nat} {c N : Nat} {P : Nat → Prop} :
    (∀ n, next^[n] c < N ∧ P (next^[n] c)) ↔
      ∃ i j, i < j ∧ next^[i] c = next^[j] c ∧ ∀ k < j, next^[k] c < N ∧ P (next^[k] c) := by
  constructor
  · intro h
    obtain ⟨i, j, hij, he⟩ := orbit_repeats fun n => (h n).1
    exact ⟨i, j, hij, he, fun k _ => h k⟩
  · intro hx n
    obtain ⟨i, j, hij, he, h⟩ := hx
    exact @orbit_all _ next c i j hij he (fun x => x < N ∧ P x) h n

end InaneOS.Lib
