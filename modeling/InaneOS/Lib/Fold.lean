import Mathlib.Data.List.Basic
import Mathlib.Tactic.Common

/-!
# Loops that may stop early

A loop over a list whose body may leave it is `List.foldlM` in `Except`: `.ok`
goes on with what was gathered, `.error` leaves. A loop over an appended list
runs over the first part and, if nothing stopped it, over the second; a loop that
was stopped was stopped at one of its places; and a loop that gathers nothing is
a search for the first place that stops it (`foldlM_first`).
-/

namespace InaneOS.Lib

variable {α β σ : Type}

theorem foldlM_append_ok {step : σ → β → Except α σ} {l l' : List β} {a b : σ}
    (h : l.foldlM step a = .ok b) : (l ++ l').foldlM step a = l'.foldlM step b := by
  rw [List.foldlM_append, h]
  rfl

theorem foldlM_append_error {step : σ → β → Except α σ} {l l' : List β} {a : σ} {r : α}
    (h : l.foldlM step a = .error r) : (l ++ l').foldlM step a = .error r := by
  rw [List.foldlM_append, h]
  rfl

/-- A fold that ends early was stopped somewhere. -/
theorem foldlM_stop {step : σ → β → Except α σ} {r : α} : ∀ {l : List β} {a : σ},
    l.foldlM step a = .error r → ∃ x ∈ l, ∃ b, step b x = .error r
  | [], _, h => by cases h
  | x :: l, a, h => by
    rw [List.foldlM_cons] at h
    cases hx : step a x with
    | error r' =>
      rw [hx] at h
      exact ⟨x, by simp, a, hx.trans h⟩
    | ok b =>
      rw [hx] at h
      obtain ⟨y, hy, hstop⟩ := foldlM_stop (show l.foldlM step b = .error r from h)
      exact ⟨y, List.mem_cons_of_mem _ hy, hstop⟩

/-- A fold that gathers nothing ends at the first place that stops it, if there is one. -/
theorem foldlM_first (step : Unit → β → Except α Unit) : ∀ (l : List β),
    (l.foldlM step () = .ok () ∧ ∀ x ∈ l, step () x = .ok ()) ∨
    ∃ l₁ x l₂ r, l = l₁ ++ x :: l₂ ∧ (∀ y ∈ l₁, step () y = .ok ()) ∧ step () x = .error r ∧
      l.foldlM step () = .error r
  | [] => Or.inl ⟨rfl, by simp⟩
  | x :: l => by
    rw [List.foldlM_cons]
    cases hx : step () x with
    | error r => exact Or.inr ⟨[], x, l, r, rfl, by simp, hx, rfl⟩
    | ok b =>
      have hbind : (Except.ok b >>= fun s => l.foldlM step s) = l.foldlM step () := rfl
      rw [hbind]
      rcases foldlM_first step l with ⟨hok, hall⟩ | ⟨l₁, y, l₂, r, rfl, hall, hy, herr⟩
      · refine Or.inl ⟨hok, fun y hy => ?_⟩
        rcases List.mem_cons.mp hy with rfl | hy
        · exact hx
        · exact hall y hy
      · refine Or.inr ⟨x :: l₁, y, l₂, r, rfl, fun z hz => ?_, hy, herr⟩
        rcases List.mem_cons.mp hz with rfl | hz
        · exact hx
        · exact hall z hz

end InaneOS.Lib
