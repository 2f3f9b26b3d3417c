import Mathlib.Data.List.Basic
import Mathlib.Data.List.Nodup
import Mathlib.Tactic.Common

/-!
# Chains through a successor table

A table `next : α → α` with end marks `stop` links cells into chains.
`Chain next stop c l` says that following `next` from `c` visits exactly the
cells of `l`, in order, and then meets an end mark. The table is a function, so
the list is determined by `c` (`Chain.unique`) and no cell repeats
(`Chain.nodup`): termination and acyclicity need no hypothesis of their own.

The remaining lemmas are what an in-place update of the table does to a chain:
nothing when no cell of it is written (`Chain.congr`), one more cell when the
last link is redirected (`Chain.extend`).
-/

namespace InaneOS.Lib

variable {α : Type}

/-- Following `next` from `c` visits `l` and then an end mark. -/
def Chain (next : α → α) (stop : α → Prop) : α → List α → Prop
  | c, [] => stop c
  | c, x :: xs => c = x ∧ ¬ stop x ∧ Chain next stop (next x) xs

namespace Chain

variable {next next' : α → α} {stop : α → Prop}

theorem unique : ∀ {c : α} {xs ys : List α},
    Chain next stop c xs → Chain next stop c ys → xs = ys
  | _, [], [], _, _ => rfl
  | _, [], y :: _, hx, hy => by
    obtain ⟨rfl, hn, -⟩ := hy
    exact absurd hx hn
  | _, x :: _, [], hx, hy => by
    obtain ⟨rfl, hn, -⟩ := hx
    exact absurd hy hn
  | _, x :: xs, y :: ys, hx, hy => by
    obtain ⟨rfl, -, hx⟩ := hx
    obtain ⟨rfl, -, hy⟩ := hy
    rw [unique hx hy]

/-- The rest of a chain, from any of its cells. -/
theorem suffix : ∀ {c : α} (xs : List α) {y : α} {ys : List α},
    Chain next stop c (xs ++ y :: ys) → Chain next stop y (y :: ys)
  | _, [], _, _, h => ⟨rfl, h.2⟩
  | _, _ :: xs, _, _, h => suffix xs h.2.2

theorem nodup : ∀ {c : α} {xs : List α}, Chain next stop c xs → xs.Nodup
  | _, [], _ => List.nodup_nil
  | _, x :: xs, h => by
    refine List.nodup_cons.mpr ⟨fun hmem => ?_, nodup h.2.2⟩
    -- a second visit of `x` would have to be followed by the same list again
    obtain ⟨l, r, hlr⟩ := List.append_of_mem hmem
    have hrest : Chain next stop x (x :: r) := suffix l (hlr ▸ h.2.2)
    have hwhole : Chain next stop x (x :: xs) := ⟨rfl, h.2⟩
    have hlen := congrArg List.length (unique hwhole hrest)
    rw [hlr] at hlen
    simp only [List.length_cons, List.length_append] at hlen
    omega

theorem congr : ∀ {c : α} {xs : List α}, (∀ x ∈ xs, next' x = next x) →
    Chain next stop c xs → Chain next' stop c xs
  | _, [], _, h => h
  | _, x :: xs, hag, h => by
    refine ⟨h.1, h.2.1, ?_⟩
    rw [hag x (List.mem_cons_self ..)]
    exact congr (fun y hy => hag y (List.mem_cons_of_mem _ hy)) h.2.2

/-- Redirecting the last link of a chain to a cell that ends it. -/
theorem extend : ∀ {c : α} (xs : List α) {t n : α}, (∀ x ∈ xs, next' x = next x) →
    next' t = n → ¬ stop n → stop (next' n) →
    Chain next stop c (xs ++ [t]) → Chain next' stop c (xs ++ [t, n])
  | _, [], t, n, _, hlink, hn, hend, h =>
    ⟨h.1, h.2.1, hlink, hn, hend⟩
  | _, x :: xs, t, n, hag, hlink, hn, hend, h => by
    refine ⟨h.1, h.2.1, ?_⟩
    rw [hag x (List.mem_cons_self ..)]
    exact extend xs (fun y hy => hag y (List.mem_cons_of_mem _ hy)) hlink hn hend h.2.2

end Chain

end InaneOS.Lib
