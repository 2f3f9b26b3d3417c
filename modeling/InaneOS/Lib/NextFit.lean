import Mathlib.Data.List.Nodup
import Mathlib.Tactic.Common

/-!
# Next-fit search

A cursor goes round `total` slots and stops at the first one that is not taken; the
next search starts behind it. `nextFit` lists the slots in the order in which they
would be found, so that a search takes the head and leaves the tail
(`nextFit_take`), whatever the cursor does.
-/

namespace InaneOS.Lib

variable {used : Nat → Bool} {cursor total : Nat}

/-- The free slots met in `n` rounds from round `i` on. -/
def scanFrom (used : Nat → Bool) (cursor total i n : Nat) : List Nat :=
  ((List.range' i n).map fun k => (cursor + k) % total).filter fun f => !used f

/-- All free slots, in the order of the search. -/
def nextFit (used : Nat → Bool) (cursor total : Nat) : List Nat :=
  scanFrom used cursor total 0 total

theorem scanFrom_succ (i n : Nat) : scanFrom used cursor total i (n + 1) =
    if used ((cursor + i) % total) then scanFrom used cursor total (i + 1) n
    else (cursor + i) % total :: scanFrom used cursor total (i + 1) n := by
  rw [scanFrom, List.range'_succ, List.map_cons, List.filter_cons]
  cases used ((cursor + i) % total) <;> rfl

/-- Every slot comes up once round. -/
theorem exists_round {f : Nat} (hc : cursor < total) (hf : f < total) :
    ∃ j < total, (cursor + j) % total = f := by
  by_cases hle : cursor ≤ f
  · exact ⟨f - cursor, by omega, by rw [Nat.add_sub_cancel' hle, Nat.mod_eq_of_lt hf]⟩
  · refine ⟨total - cursor + f, by omega, ?_⟩
    rw [show cursor + (total - cursor + f) = f + total by omega, Nat.add_mod_right,
      Nat.mod_eq_of_lt hf]

theorem mem_nextFit {f : Nat} (hc : cursor < total) :
    f ∈ nextFit used cursor total ↔ f < total ∧ used f = false := by
  rw [nextFit, scanFrom, List.mem_filter, List.mem_map]
  constructor
  · intro ⟨⟨k, _, hk⟩, hu⟩
    refine ⟨?_, by simpa using hu⟩
    rw [← hk]
    exact Nat.mod_lt _ (by omega)
  · intro ⟨hf, hu⟩
    obtain ⟨j, hj, hjf⟩ := exists_round hc hf
    refine ⟨⟨j, List.mem_range'_1.mpr ⟨Nat.zero_le _, by omega⟩, hjf⟩, by rw [hu]; rfl⟩

theorem nextFit_congr {used' : Nat → Bool} (hc : cursor < total)
    (h : ∀ f < total, used' f = used f) :
    nextFit used' cursor total = nextFit used cursor total := by
  refine List.filter_congr fun f hf => ?_
  obtain ⟨k, -, rfl⟩ := List.mem_map.mp hf
  rw [h _ (Nat.mod_lt _ (by omega))]

/-- The head is found in some round `j`, all earlier slots being taken, and the tail is what
the later rounds meet. -/
theorem scanFrom_eq_cons : ∀ {n i f : Nat} {l : List Nat},
    scanFrom used cursor total i n = f :: l →
    ∃ j, i ≤ j ∧ j < i + n ∧ f = (cursor + j) % total ∧ used f = false ∧
      (∀ k, i ≤ k → k < j → used ((cursor + k) % total) = true) ∧
      l = scanFrom used cursor total (j + 1) (i + n - (j + 1))
  | 0, _, _, _, h => absurd h (by simp [scanFrom])
  | n + 1, i, f, l, h => by
    rw [scanFrom_succ] at h
    split at h
    · next hu =>
      obtain ⟨j, h1, h2, hf, hfree, hbefore, hl⟩ := scanFrom_eq_cons h
      refine ⟨j, by omega, by omega, hf, hfree, fun k hk1 hk2 => ?_, ?_⟩
      · by_cases hki : k = i
        · rw [hki]
          exact hu
        · exact hbefore k (by omega) hk2
      · rw [hl, show i + 1 + n - (j + 1) = i + (n + 1) - (j + 1) by omega]
    · next hu =>
      obtain ⟨rfl, rfl⟩ := List.cons.inj h
      refine ⟨i, Nat.le_refl _, by omega, rfl, by simpa using hu, fun k hk1 hk2 => by omega, ?_⟩
      rw [show i + (n + 1) - (i + 1) = n by omega]

/-- Two rounds less than a turn apart meet different slots. -/
theorem round_ne {j k : Nat} (hjk : j < k) (hk : k < j + total) :
    (cursor + k) % total ≠ (cursor + j) % total := by
  intro h
  have hmod : (k - j) % total = 0 := by
    have h0 := Nat.sub_mod_eq_zero_of_mod_eq h
    rwa [show cursor + k - (cursor + j) = k - j by omega] at h0
  rw [Nat.mod_eq_of_lt (by omega)] at hmod
  omega

/-- No slot is met twice. -/
theorem nextFit_nodup : (nextFit used cursor total).Nodup := by
  refine List.Nodup.filter _ (List.Nodup.map_on ?_ List.nodup_range')
  intro j hj k hk he
  rw [List.mem_range'_1] at hj hk
  rcases Nat.lt_trichotomy j k with hlt | heq | hlt
  · exact absurd he.symm (round_ne hlt (by omega))
  · exact heq
  · exact absurd he (round_ne hlt (by omega))

/-- **Taking the head leaves the tail.** -/
theorem nextFit_take {f : Nat} {l : List Nat} (h : nextFit used cursor total = f :: l) :
    nextFit (fun g => decide (g = f) || used g) ((f + 1) % total) total = l := by
  obtain ⟨j, -, hj, hf, -, hbefore, hl⟩ := scanFrom_eq_cons h
  rw [Nat.zero_add] at hj hl
  have hround : ∀ k, ((f + 1) % total + k) % total = (cursor + (j + 1 + k)) % total := by
    intro k
    rw [Nat.mod_add_mod, hf, show (cursor + j) % total + 1 + k = (cursor + j) % total + (1 + k) by
      omega, Nat.mod_add_mod, show cursor + j + (1 + k) = cursor + (j + 1 + k) by omega]
  -- the rounds behind the head, then those up to it, in which everything is taken by now
  have hsplit : List.range' 0 total = List.range' 0 (total - (j + 1)) ++
      List.range' (total - (j + 1)) (j + 1) := by
    have happ := @List.range'_append_1 0 (total - (j + 1)) (j + 1)
    rw [Nat.zero_add, show total - (j + 1) + (j + 1) = total by omega] at happ
    exact happ.symm
  rw [nextFit, scanFrom, hsplit, List.map_append, List.filter_append]
  have hlate : ((List.range' (total - (j + 1)) (j + 1)).map
      fun k => ((f + 1) % total + k) % total).filter (fun g => !(decide (g = f) || used g)) =
        [] := by
    refine List.filter_eq_nil_iff.mpr fun g hg => ?_
    obtain ⟨k, hk, rfl⟩ := List.mem_map.mp hg
    obtain ⟨hk1, hk2⟩ := List.mem_range'_1.mp hk
    have hturn : (cursor + (j + 1 + k)) % total = (cursor + (j + 1 + k - total)) % total := by
      rw [show cursor + (j + 1 + k) = cursor + (j + 1 + k - total) + total by omega,
        Nat.add_mod_right]
    rw [hround, hturn]
    by_cases hkj : j + 1 + k - total = j
    · rw [hkj, ← hf]
      simp
    · rw [hbefore _ (Nat.zero_le _) (by omega)]
      simp
  have hearly : ((List.range' 0 (total - (j + 1))).map
      fun k => ((f + 1) % total + k) % total).filter (fun g => !(decide (g = f) || used g)) =
        l := by
    rw [hl, scanFrom]
    have hmap : (List.range' 0 (total - (j + 1))).map (fun k => ((f + 1) % total + k) % total) =
        (List.range' (j + 1) (total - (j + 1))).map fun k => (cursor + k) % total := by
      rw [List.range'_eq_map_range, List.map_map, List.range'_eq_map_range, List.map_map]
      refine List.map_congr_left fun k _ => ?_
      show ((f + 1) % total + (0 + k)) % total = (cursor + (j + 1 + k)) % total
      rw [Nat.zero_add, hround]
    rw [hmap]
    refine List.filter_congr fun g hg => ?_
    obtain ⟨k, hk, rfl⟩ := List.mem_map.mp hg
    obtain ⟨hk1, hk2⟩ := List.mem_range'_1.mp hk
    have hne : (cursor + k) % total ≠ f := by
      rw [hf]
      exact round_ne (by omega) (by omega)
    simp [hne]
  rw [hlate, hearly, List.append_nil]

end InaneOS.Lib
