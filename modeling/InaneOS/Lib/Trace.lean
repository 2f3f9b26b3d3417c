import Mathlib.Data.List.Basic
import Mathlib.Tactic.Common

/-!
# What holds at every cut of a run of steps

`Always app P s ws` says that `P` holds of `s` and after each of the steps `ws`,
that is, of every state that stopping the run early can leave behind
(`always_iff`). A run is proved piece by piece: `always_append` cuts it where
one phase ends and the next begins.
-/

namespace InaneOS.Lib

variable {σ ω : Type} {app : σ → ω → σ} {P Q : σ → Prop}

/-- `P` at the start and after every step of `ws`. -/
def Always (app : σ → ω → σ) (P : σ → Prop) : σ → List ω → Prop
  | s, [] => P s
  | s, w :: ws => P s ∧ Always app P (app s w) ws

theorem Always.start : ∀ {s : σ} {ws : List ω}, Always app P s ws → P s
  | _, [], h => h
  | _, _ :: _, h => h.1

theorem Always.final {s : σ} {ws : List ω} (h : Always app P s ws) : P (ws.foldl app s) := by
  induction ws generalizing s with
  | nil => exact h
  | cons w ws ih => exact ih h.2

theorem Always.imp (hpq : ∀ s, P s → Q s) : ∀ {s : σ} {ws : List ω},
    Always app P s ws → Always app Q s ws
  | _, [], h => hpq _ h
  | _, _ :: _, h => ⟨hpq _ h.1, Always.imp hpq h.2⟩

theorem Always.append : ∀ {s : σ} {ws vs : List ω}, Always app P s ws →
    Always app P (ws.foldl app s) vs → Always app P s (ws ++ vs)
  | _, [], _, _, h => h
  | _, _ :: _, _, h, hv => ⟨h.1, Always.append h.2 hv⟩

/-- The recursive form is the statement about every cut. -/
theorem always_iff : ∀ {s : σ} {ws : List ω},
    Always app P s ws ↔ ∀ k, P ((ws.take k).foldl app s)
  | s, [] => by simp [Always]
  | s, w :: ws => by
    constructor
    · intro h k
      cases k with
      | zero => exact h.1
      | succ k => exact always_iff.mp h.2 k
    · intro h
      exact ⟨h 0, always_iff.mpr fun k => h (k + 1)⟩

end InaneOS.Lib
