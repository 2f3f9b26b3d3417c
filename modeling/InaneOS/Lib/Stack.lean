import Mathlib.Data.List.DropRight
import Mathlib.Tactic.Common

/-!
# Runs of pushes and pops

A stack is a list with its top at the end. A run of edits takes a number of
entries off the stack it starts from and leaves a list on top of the rest, and
neither depends on that stack (`edits_eq`): `climb` is the number, `left` the
list.

`edits_filter_iff` is what follows for two runs of the same edits, one of them
from a stack with some of its entries crossed out: they stay in step exactly when
the entries taken off are all ones that count, or none that counts is left.
-/

namespace InaneOS.Lib

variable {α : Type}

/-- One edit of a stack. -/
inductive Edit (α : Type) where
  | skip
  | push (a : α)
  | pop

def Edit.apply : Edit α → List α → List α
  | skip, s => s
  | push a, s => s ++ [a]
  | pop, s => s.dropLast

def edits (es : List (Edit α)) (s : List α) : List α := es.foldl (fun s e => e.apply s) s

/-- What a run leaves was there before or was pushed. -/
theorem mem_edits {c : α} : ∀ {es : List (Edit α)} {s : List α}, c ∈ edits es s →
    c ∈ s ∨ Edit.push c ∈ es
  | [], _, h => Or.inl h
  | e :: es, s, h => by
    rcases @mem_edits c es (e.apply s) h with h | h
    · cases e with
      | skip => exact Or.inl h
      | push a =>
        rcases List.mem_append.mp h with h | h
        · exact Or.inl h
        · rw [List.mem_singleton.mp h]
          exact Or.inr (List.mem_cons_self ..)
      | pop => exact Or.inl (List.dropLast_subset s h)
    · exact Or.inr (List.mem_cons_of_mem _ h)

/-- What is on top so far and how much was taken off, after one more edit. -/
def Edit.sum : List α × Nat → Edit α → List α × Nat
  | t, skip => t
  | (y, k), push a => (y ++ [a], k)
  | (y, k), pop => if y = [] then (y, k + 1) else (y.dropLast, k)

/-- How many entries of the stack it starts from a run takes off. -/
def climb (es : List (Edit α)) : Nat := (es.foldl Edit.sum ([], 0)).2

/-- What a run leaves on top of them. -/
def left (es : List (Edit α)) : List α := (es.foldl Edit.sum ([], 0)).1

theorem rdrop_succ (s : List α) (k : Nat) : s.rdrop (k + 1) = (s.rdrop k).dropLast := by
  rw [List.rdrop, List.rdrop, List.dropLast_eq_take, List.take_take, List.length_take]
  congr 1
  omega

/-- One more edit, in terms of what was taken off and what is left. -/
theorem apply_sum (s : List α) (e : Edit α) : ∀ (t : List α × Nat),
    e.apply (s.rdrop t.2 ++ t.1) = s.rdrop (e.sum t).2 ++ (e.sum t).1
  | (y, k) => by
    cases e with
    | skip => rfl
    | push a => exact List.append_assoc _ _ _
    | pop =>
      rw [Edit.apply, Edit.sum]
      by_cases hy : y = []
      · rw [if_pos hy, hy, List.append_nil, List.append_nil, rdrop_succ]
      · rw [if_neg hy, List.dropLast_append_of_ne_nil hy]

/-- **A run takes entries off and leaves others**, whatever it starts from. -/
theorem edits_eq (es : List (Edit α)) (s : List α) :
    edits es s = s.rdrop (climb es) ++ left es := by
  have hrun : ∀ (es : List (Edit α)) (t : List α × Nat),
      edits es (s.rdrop t.2 ++ t.1) =
        s.rdrop (es.foldl Edit.sum t).2 ++ (es.foldl Edit.sum t).1 := by
    intro es
    induction es with
    | nil =>
      intro t
      rfl
    | cons e es ih =>
      intro t
      rw [List.foldl_cons, ← ih (e.sum t), ← apply_sum]
      rfl
  have h := hrun es ([], 0)
  rw [List.rdrop_zero, List.append_nil] at h
  exact h

/-! ## A stack with entries crossed out -/

section Filter

variable {p : α → Bool}

/-- What is left on top was pushed. -/
theorem left_of_pushes {es : List (Edit α)} (hes : ∀ a, Edit.push a ∈ es → p a = true) :
    ∀ a ∈ left es, p a = true := by
  have hrun : ∀ (es : List (Edit α)) (t : List α × Nat),
      (∀ a, Edit.push a ∈ es → p a = true) → (∀ a ∈ t.1, p a = true) →
        ∀ a ∈ (es.foldl Edit.sum t).1, p a = true := by
    intro es
    induction es with
    | nil => exact fun t _ ht => ht
    | cons e es ih =>
      intro t hes ht
      refine ih (e.sum t) (fun a ha => hes a (List.mem_cons_of_mem _ ha)) ?_
      obtain ⟨y, k⟩ := t
      cases e with
      | skip => exact ht
      | push a =>
        intro b hb
        rcases List.mem_append.mp hb with hb | hb
        · exact ht b hb
        · rw [List.mem_singleton.mp hb]
          exact hes a (List.mem_cons_self ..)
      | pop =>
        intro b hb
        rw [Edit.sum] at hb
        split at hb
        · exact ht b hb
        · exact ht b ((List.dropLast_sublist _).subset hb)
  exact hrun es ([], 0) hes (by simp)

theorem rdrop_append_rtake (s : List α) (k : Nat) : s.rdrop k ++ s.rtake k = s :=
  List.take_append_drop _ s

theorem rdrop_length (s : List α) (k : Nat) : (s.rdrop k).length = s.length - k := by
  rw [List.rdrop, List.length_take]
  omega

theorem rdrop_of_le {s : List α} {k : Nat} (h : s.length ≤ k) : s.rdrop k = [] := by
  rw [List.rdrop, Nat.sub_eq_zero_of_le h, List.take_zero]

theorem rdrop_append_length (a b : List α) : (a ++ b).rdrop b.length = a := by
  rw [List.rdrop, List.length_append, Nat.add_sub_cancel, List.take_left]

/-- Taking `k` entries off and crossing out what does not count come to the same
in either order exactly when all of the `k` count or none below them does. -/
theorem filter_rdrop_iff (s : List α) (k : Nat) :
    (s.rdrop k).filter p = (s.filter p).rdrop k ↔
      (∀ a ∈ s.rtake k, p a = true) ∨ ∀ a ∈ s.rdrop k, p a = false := by
  have hsplit : s.filter p = (s.rdrop k).filter p ++ (s.rtake k).filter p := by
    rw [← List.filter_append, rdrop_append_rtake]
  have hle : (s.rtake k).length = min k s.length := by
    rw [List.rtake, List.length_drop]
    omega
  have hcount : ((s.rtake k).filter p).length ≤ (s.rtake k).length := List.length_filter_le ..
  constructor
  · intro h
    have hlen := congrArg List.length h
    rw [rdrop_length, hsplit, List.length_append] at hlen
    by_cases h0 : ((s.rdrop k).filter p).length = 0
    · refine Or.inr fun a ha => ?_
      have hnil := List.length_eq_zero_iff.mp h0
      simpa using List.filter_eq_nil_iff.mp hnil a ha
    · refine Or.inl ?_
      have hall : ((s.rtake k).filter p).length = (s.rtake k).length := by omega
      exact List.length_filter_eq_length_iff.mp hall
  · intro h
    rcases h with hall | hnone
    · have hfull : (s.rtake k).filter p = s.rtake k := List.filter_eq_self.mpr hall
      rw [hsplit, hfull]
      by_cases hk : k ≤ s.length
      · have hlen : (s.rtake k).length = k := by omega
        have hcut := rdrop_append_length ((s.rdrop k).filter p) (s.rtake k)
        rw [hlen] at hcut
        exact hcut.symm
      · rw [rdrop_of_le (s := s) (by omega), List.filter_nil, List.nil_append,
          rdrop_of_le (by omega)]
    · have hnil : (s.rdrop k).filter p = [] :=
        List.filter_eq_nil_iff.mpr fun a ha => by simp [hnone a ha]
      rw [hsplit, hnil, List.nil_append, rdrop_of_le (by omega)]

/-- **When the same edits keep two stacks in step**, one of them without the
entries that do not count: all entries taken off count, or none below them does. -/
theorem edits_filter_iff {es : List (Edit α)} (hes : ∀ a, Edit.push a ∈ es → p a = true)
    (s : List α) : (edits es s).filter p = edits es (s.filter p) ↔
      (∀ a ∈ s.rtake (climb es), p a = true) ∨ ∀ a ∈ s.rdrop (climb es), p a = false := by
  have hleft : (left es).filter p = left es := List.filter_eq_self.mpr (left_of_pushes hes)
  rw [edits_eq, edits_eq, List.filter_append, hleft, List.append_left_inj]
  exact filter_rdrop_iff s (climb es)

end Filter

end InaneOS.Lib
