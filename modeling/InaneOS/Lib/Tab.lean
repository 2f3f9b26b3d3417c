import Mathlib.Data.List.InsertIdx
import Mathlib.Tactic.Common

/-!
# Tabulated lists

`tab n f` is the list `f 0, …, f (n - 1)`. Editing such a list is again a list of that
kind, with another function; so a loop over an array can be compared with the list
operation it is meant to be, place by place.
-/

namespace InaneOS.Lib

variable {α : Type}

def tab (n : Nat) (f : Nat → α) : List α := (List.range n).map f

@[simp] theorem tab_length (n : Nat) (f : Nat → α) : (tab n f).length = n := by
  simp [tab]

theorem tab_getElem? (n : Nat) (f : Nat → α) (i : Nat) :
    (tab n f)[i]? = if i < n then some (f i) else none := by
  unfold tab
  rw [List.getElem?_map]
  split
  · next h =>
    rw [List.getElem?_range h]
    rfl
  · next h =>
    rw [List.getElem?_eq_none (by simpa using h)]
    rfl

/-- A list is a table when it has the right length and the right elements. -/
theorem eq_tab {l : List α} {n : Nat} {f : Nat → α} (hlen : l.length = n)
    (h : ∀ i < n, l[i]? = some (f i)) : l = tab n f := by
  refine List.ext_getElem? fun i => ?_
  rw [tab_getElem?]
  split
  · next hi => exact h i hi
  · next hi => exact List.getElem?_eq_none (by omega)

theorem tab_congr {n : Nat} {f g : Nat → α} (h : ∀ i < n, f i = g i) : tab n f = tab n g :=
  List.map_congr_left fun i hi => h i (List.mem_range.mp hi)

theorem tab_modify (n : Nat) (f : Nat → α) (y : Nat) (g : α → α) :
    (tab n f).modify y g = tab n fun i => if i = y then g (f i) else f i := by
  refine eq_tab (by simp) fun i hi => ?_
  rw [List.getElem?_modify, tab_getElem?, if_pos hi]
  by_cases hy : i = y
  · rw [if_pos hy, hy]
    simp
  · rw [if_neg hy]
    simp [Ne.symm hy]

theorem tab_eraseIdx {n : Nat} (f : Nat → α) {y : Nat} (hy : y < n) :
    (tab n f).eraseIdx y = tab (n - 1) fun i => if i < y then f i else f (i + 1) := by
  refine eq_tab (by rw [List.length_eraseIdx_of_lt (by simpa using hy), tab_length]) fun i hi => ?_
  rw [List.getElem?_eraseIdx, tab_getElem?, tab_getElem?]
  by_cases h : i < y
  · rw [if_pos h, if_pos h, if_pos (by omega)]
  · rw [if_neg h, if_neg h, if_pos (by omega)]

theorem tab_insertIdx {n : Nat} (f : Nat → α) {y : Nat} (hy : y ≤ n) (a : α) :
    (tab n f).insertIdx y a =
      tab (n + 1) fun i => if i < y then f i else if i = y then a else f (i - 1) := by
  refine eq_tab (by rw [List.length_insertIdx_of_le_length (by simpa using hy), tab_length])
    fun i hi => ?_
  rw [List.getElem?_insertIdx, tab_getElem?, tab_getElem?, tab_length]
  by_cases h : i < y
  · rw [if_pos h, if_pos h, if_pos (by omega)]
  · rw [if_neg h, if_neg h]
    by_cases he : i = y
    · rw [if_pos he, if_pos he, if_pos (by omega)]
    · rw [if_neg he, if_neg he, if_pos (by omega)]

theorem tab_take {n m : Nat} (f : Nat → α) (h : m ≤ n) : (tab n f).take m = tab m f := by
  refine eq_tab (by simp [h]) fun i hi => ?_
  rw [List.getElem?_take, if_pos hi, tab_getElem?, if_pos (by omega)]

theorem tab_drop (n m : Nat) (f : Nat → α) :
    (tab n f).drop m = tab (n - m) fun i => f (m + i) := by
  refine eq_tab (by simp) fun i hi => ?_
  rw [List.getElem?_drop, tab_getElem?, if_pos (by omega)]

theorem tab_append (n m : Nat) (f g : Nat → α) :
    tab n f ++ tab m g = tab (n + m) fun i => if i < n then f i else g (i - n) := by
  refine eq_tab (by simp) fun i hi => ?_
  rw [List.getElem?_append, tab_length, tab_getElem?, tab_getElem?]
  by_cases h : i < n
  · rw [if_pos h, if_pos h, if_pos h]
  · rw [if_neg h, if_neg h, if_pos (by omega)]

end InaneOS.Lib
