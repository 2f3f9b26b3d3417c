import Mathlib.Algebra.Group.Nat.Defs
import Mathlib.Data.Int.Order.Basic
import Mathlib.Tactic.Common

/-!
# Checked arrays

An array of a fixed size as a function on the integers, with accesses that fail outside
it. A program written with `getAt` and `setAt` returns a value only if every index it used
was in bounds.
-/

namespace InaneOS.Lib

variable {α β : Type}

/-- `a[i]` in an array of `n` elements. -/
def getAt (n : Int) (a : Int → α) (i : Int) : Option α := if 0 ≤ i ∧ i < n then some (a i) else none

/-- `a` with `v` at `i`. -/
def put (a : Int → α) (i : Int) (v : α) : Int → α := fun j => if j = i then v else a j

/-- `a[i] = v` in an array of `n` elements. -/
def setAt (n : Int) (a : Int → α) (i : Int) (v : α) : Option (Int → α) :=
  if 0 ≤ i ∧ i < n then some (put a i v) else none

theorem getAt_eq {n : Int} {a : Int → α} {i : Int} (h0 : 0 ≤ i) (hn : i < n) :
    getAt n a i = some (a i) := if_pos ⟨h0, hn⟩

theorem setAt_eq {n : Int} {a : Int → α} {i : Int} {v : α} (h0 : 0 ≤ i) (hn : i < n) :
    setAt n a i v = some (put a i v) := if_pos ⟨h0, hn⟩

/-- A step whose answer is known. -/
theorem bind_of_eq {x : Option α} {a : α} {f : α → Option β} (h : x = some a) :
    (x >>= f) = f a := by
  rw [h]
  rfl

/-- What a test gives comes from one of its branches. -/
theorem of_ite {c p : Prop} [Decidable c] {a b x : α} (h : (if c then a else b) = x)
    (hpos : c → a = x → p) (hneg : ¬ c → b = x → p) : p := by
  by_cases hc : c
  · rw [if_pos hc] at h
    exact hpos hc h
  · rw [if_neg hc] at h
    exact hneg hc h

/-- A loop over steps whose answers are known. -/
theorem mapM_of_eq {f : α → Option β} {g : α → β} :
    ∀ {l : List α}, (∀ x ∈ l, f x = some (g x)) → l.mapM f = some (l.map g)
  | [], _ => rfl
  | x :: l, h => by
    rw [List.mapM_cons, bind_of_eq (h x (by simp)),
      bind_of_eq (mapM_of_eq fun y hy => h y (List.mem_cons_of_mem _ hy))]
    rfl

@[simp] theorem put_self (a : Int → α) (i : Int) (v : α) : put a i v i = v := if_pos rfl

theorem put_of_ne {a : Int → α} {i j : Int} {v : α} (h : j ≠ i) : put a i v j = a j := if_neg h

end InaneOS.Lib
