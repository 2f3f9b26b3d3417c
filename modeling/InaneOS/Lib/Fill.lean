import Mathlib.Data.List.Basic
import Mathlib.Tactic.Common

/-!
# Filling a buffer with whole items

A loop that appends one item after the other to a buffer and stops at the first item for
which there is no room stores a prefix of the items (`fill_prefix`). An item may ask for
more room than it takes; if it never takes more than it asks for, the buffer is not
overrun (`fill_length`), and if there is room for all of them and the slack of one, all
of them are stored (`fill_all`).
-/

namespace InaneOS.Lib

section Fill

variable {α β : Type} (line : α → List β) (need : α → Nat) (cap : Nat)

/-- The items of `xs` behind `out`, up to the first for which there is no room. -/
def fill : List β → List α → List β
  | out, [] => out
  | out, x :: xs => if out.length + need x > cap then out else fill (out ++ line x) xs

theorem fill_map {γ : Type} (φ : γ → α) : ∀ (out : List β) (xs : List γ),
    fill line need cap out (xs.map φ) = fill (line ∘ φ) (need ∘ φ) cap out xs
  | _, [] => rfl
  | out, x :: xs => by
    rw [List.map_cons, fill, fill, fill_map φ (out ++ line (φ x)) xs]
    rfl

/-- `stored` are the items of `xs` that went into the buffer: for each of them there was
room behind the ones before, and for the next one there is none. -/
structure Stores (xs stored : List α) : Prop where
  isPrefix : stored <+: xs
  room : ∀ as x, as ++ [x] <+: stored → (as.flatMap line).length + need x ≤ cap
  full : ∀ x, stored ++ [x] <+: xs → cap < (stored.flatMap line).length + need x

/-- **The buffer holds the items stored**, whatever was in front of them. -/
theorem fill_prefix : ∀ (xs done : List α), (∀ as x, as ++ [x] <+: done →
    (as.flatMap line).length + need x ≤ cap) →
    ∃ stored, fill line need cap (done.flatMap line) xs = stored.flatMap line ∧
      Stores line need cap (done ++ xs) stored
  | [], done, hroom => by
    refine ⟨done, rfl, ?_, hroom, fun x hx => ?_⟩
    · exact List.prefix_append done []
    · rw [List.append_nil] at hx
      have hlen := hx.length_le
      rw [List.length_append, List.length_singleton] at hlen
      omega
  | x :: xs, done, hroom => by
    rw [fill]
    by_cases hx : (done.flatMap line).length + need x > cap
    · rw [if_pos hx]
      refine ⟨done, rfl, List.prefix_append .., hroom, fun y hy => ?_⟩
      rw [List.prefix_append_right_inj, List.cons_prefix_cons] at hy
      rw [hy.1]
      exact hx
    · rw [if_neg hx]
      have hroom' : ∀ as y, as ++ [y] <+: done ++ [x] →
          (as.flatMap line).length + need y ≤ cap := by
        intro as y hy
        rcases List.prefix_concat_iff.mp hy with heq | hy
        · obtain ⟨rfl, hyx⟩ := List.append_inj' heq rfl
          rw [List.singleton_inj.mp hyx]
          omega
        · exact hroom as y hy
      obtain ⟨stored, hfill, hst⟩ := fill_prefix xs (done ++ [x]) hroom'
      rw [List.flatMap_append, List.flatMap_singleton] at hfill
      rw [List.append_assoc, List.singleton_append] at hst
      exact ⟨stored, hfill, hst⟩

variable {line need cap}

/-- Nothing is stored behind the end of the buffer. -/
theorem Stores.length_le {xs stored : List α} (h : Stores line need cap xs stored)
    (hneed : ∀ x, (line x).length ≤ need x) : (stored.flatMap line).length ≤ cap := by
  rcases List.eq_nil_or_concat' stored with rfl | ⟨as, x, rfl⟩
  · exact Nat.zero_le _
  · have hroom := h.room as x (List.prefix_refl _)
    have hx := hneed x
    rw [List.flatMap_append, List.flatMap_singleton, List.length_append]
    omega

/-- With room for everything, and for what one item asks beyond its length, everything is
stored. -/
theorem Stores.all {xs stored : List α} (h : Stores line need cap xs stored) {slack : Nat}
    (hslack : ∀ x, need x ≤ (line x).length + slack)
    (hcap : (xs.flatMap line).length + slack ≤ cap) : stored = xs := by
  obtain ⟨rest, rfl⟩ := h.isPrefix
  cases rest with
  | nil => rw [List.append_nil]
  | cons x rest =>
    have hfull := h.full x (by simp)
    have hx := hslack x
    rw [List.flatMap_append, List.flatMap_cons, List.length_append, List.length_append] at hcap
    omega

end Fill

end InaneOS.Lib
