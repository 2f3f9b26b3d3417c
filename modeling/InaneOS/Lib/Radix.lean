import Mathlib.Data.List.Basic
import Mathlib.Tactic.Common

/-!
# Radix trees kept in memory

Tables of `width` entries lie in numbered frames; an entry of a table at depth `d`
leads to another table when `next d` says so. A table is named by the path of
indices that leads to it from the root, the last index first, so that `Tree` (no
frame is two tables) is injectivity of `node` and a subtree is a list suffix.

Two lemmas say what writing to memory does to such a tree: nothing when the links
read the same (`node_congr`), one table more when a fresh one is hung below an
entry that led nowhere (`node_link`, `Tree.link`).
-/

namespace InaneOS.Lib

/-- How wide a table is and where an entry of a table at some depth leads. -/
structure Radix (F E : Type) where
  width : Nat
  next : Nat → E → Option F

namespace Radix

variable {F E : Type} {R : Radix F E} {mem mem' : F → Nat → E} {root t n f : F}

/-- The table at the end of a path. -/
def node (R : Radix F E) (mem : F → Nat → E) (root : F) : List Nat → Option F
  | [] => some root
  | i :: p =>
    if i < R.width then (node R mem root p).bind fun t => R.next p.length (mem t i) else none

theorem node_cons {i : Nat} {p : List Nat} (hi : i < R.width) (hp : R.node mem root p = some t) :
    R.node mem root (i :: p) = R.next p.length (mem t i) := by
  rw [node, if_pos hi, hp, Option.bind_some]

theorem node_cons_none {i : Nat} {p : List Nat} (hp : R.node mem root p = none) :
    R.node mem root (i :: p) = none := by
  rw [node, hp, Option.bind_none, ite_self]

/-- The table above. -/
theorem node_above {i : Nat} {p : List Nat} (h : R.node mem root (i :: p) = some f) :
    ∃ t, R.node mem root p = some t ∧ i < R.width ∧ R.next p.length (mem t i) = some f := by
  rw [node] at h
  split at h
  · next hi =>
    obtain ⟨t, hp, hf⟩ := Option.bind_eq_some_iff.mp h
    exact ⟨t, hp, hi, hf⟩
  · exact absurd h (by simp)

/-- No frame is two tables. -/
def Tree (R : Radix F E) (mem : F → Nat → E) (root : F) : Prop :=
  ∀ p q f, R.node mem root p = some f → R.node mem root q = some f → p = q

/-- Memory changed, but no link of a table did. -/
theorem node_congr (h : ∀ p t i, R.node mem root p = some t → i < R.width →
    R.next p.length (mem' t i) = R.next p.length (mem t i)) (p : List Nat) :
    R.node mem' root p = R.node mem root p := by
  induction p with
  | nil => rfl
  | cons i p ih =>
    rw [node, node, ih]
    split
    · next hi =>
      cases hp : R.node mem root p with
      | none => rfl
      | some t => exact h p t i hp hi
    · rfl

theorem Tree.congr (hT : R.Tree mem root) (h : ∀ p, R.node mem' root p = R.node mem root p) :
    R.Tree mem' root := by
  intro p q f hp hq
  rw [h] at hp hq
  exact hT p q f hp hq

/-- What hanging the empty table `n` below entry `i` of the table `t` at `p` does to memory. -/
structure Link (R : Radix F E) (mem mem' : F → Nat → E) (root : F) (p : List Nat) (i : Nat)
    (t n : F) : Prop where
  table : R.node mem root p = some t
  index : i < R.width
  unlinked : R.next p.length (mem t i) = none
  fresh : ∀ q, R.node mem root q ≠ some n
  link : R.next p.length (mem' t i) = some n
  empty : ∀ j < R.width, R.next (p.length + 1) (mem' n j) = none
  rest : ∀ f j, f ≠ n → ¬ (f = t ∧ j = i) → mem' f j = mem f j

/-- The new table is the only difference. -/
theorem node_link {p : List Nat} {i : Nat} (hT : R.Tree mem root) (h : R.Link mem mem' root p i t n)
    (q : List Nat) : R.node mem' root q = if q = i :: p then some n else R.node mem root q := by
  induction q with
  | nil => rfl
  | cons j q ih =>
    by_cases hq : q = i :: p
    · -- below the new table there is nothing, and there was nothing
      have hne : j :: q ≠ i :: p := by
        intro heq
        have hlen := congrArg List.length heq
        rw [hq] at hlen
        simp at hlen
      have hold : R.node mem root q = none := by
        rw [hq, node_cons h.index h.table]
        exact h.unlinked
      rw [if_neg hne, node_cons_none hold, node, ih, if_pos hq, Option.bind_some, hq,
        List.length_cons]
      split
      · next hj => exact h.empty j hj
      · rfl
    · rw [if_neg hq] at ih
      cases hs : R.node mem root q with
      | none =>
        have hne : j :: q ≠ i :: p := by
          intro heq
          rw [(List.cons.inj heq).2, h.table] at hs
          exact absurd hs (by simp)
        rw [if_neg hne, node_cons_none hs, node_cons_none (ih.trans hs)]
      | some s =>
        have hsn : s ≠ n := fun he => h.fresh q (by rw [hs, he])
        by_cases heq : j :: q = i :: p
        · obtain ⟨rfl, rfl⟩ := List.cons.inj heq
          have hst : s = t := Option.some.inj (hs.symm.trans h.table)
          rw [if_pos rfl, node_cons h.index (ih.trans hs), hst]
          exact h.link
        · have hrest : ¬ (s = t ∧ j = i) := by
            intro hboth
            have hqp : q = p := hT q p t (by rw [hs, hboth.1]) h.table
            exact heq (by rw [hqp, hboth.2])
          rw [if_neg heq, node, node, ih, hs, Option.bind_some, Option.bind_some,
            h.rest s j hsn hrest]

theorem Tree.link {p : List Nat} {i : Nat} (hT : R.Tree mem root)
    (h : R.Link mem mem' root p i t n) : R.Tree mem' root := by
  intro q r f hq hr
  rw [node_link hT h] at hq hr
  split at hq
  · next hqp =>
    split at hr
    · next hrp => rw [hqp, hrp]
    · exact absurd (hr.trans hq.symm) (h.fresh r)
  · split at hr
    · exact absurd (hq.trans hr.symm) (h.fresh q)
    · exact hT q r f hq hr

end Radix

end InaneOS.Lib
