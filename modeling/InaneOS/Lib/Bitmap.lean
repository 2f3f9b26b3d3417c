import Mathlib.Algebra.Group.Nat.Defs
import Mathlib.Data.Finset.Card
import Mathlib.Tactic.Common

/-!
# Bitmaps

A set of numbers kept as bits in an array of bytes, eight to a byte. The three
operations are written with masks, the way C code writes them; `getBit_setBit`
and `getBit_clearBit` say what they do to the set, and nothing else needs to know
about bytes. `clearCount` is the number of clear bits below a bound.
-/

namespace InaneOS.Lib

/-- `m[f / 8] & (1 << (f % 8))` -/
def getBit (m : Nat → BitVec 8) (f : Nat) : Bool := m (f / 8) &&& 1#8 <<< (f % 8) != 0#8

/-- `m[f / 8] |= 1 << (f % 8)` -/
def setBit (m : Nat → BitVec 8) (f : Nat) : Nat → BitVec 8 :=
  fun i => if i = f / 8 then m i ||| 1#8 <<< (f % 8) else m i

/-- `m[f / 8] &= ~(1 << (f % 8))` -/
def clearBit (m : Nat → BitVec 8) (f : Nat) : Nat → BitVec 8 :=
  fun i => if i = f / 8 then m i &&& ~~~(1#8 <<< (f % 8)) else m i

/-- The mask test looks at one bit. -/
theorem getBit_eq (m : Nat → BitVec 8) (f : Nat) : getBit m f = (m (f / 8)).getLsbD (f % 8) := by
  have hlt : f % 8 < 8 := Nat.mod_lt _ (by decide)
  unfold getBit
  rw [show 1#8 <<< (f % 8) = BitVec.twoPow 8 (f % 8) from rfl, BitVec.and_twoPow]
  cases hb : (m (f / 8)).getLsbD (f % 8) with
  | false => rfl
  | true =>
    rw [if_pos rfl]
    have hne : BitVec.twoPow 8 (f % 8) ≠ 0#8 := by
      intro h0
      have hbit := congrArg (·.getLsbD (f % 8)) h0
      simp [hlt] at hbit
    simpa using hne

theorem div_mod_inj {f g : Nat} (h : g / 8 = f / 8) (hm : g % 8 = f % 8) : g = f := by
  omega

theorem getBit_setBit (m : Nat → BitVec 8) (f g : Nat) :
    getBit (setBit m f) g = (decide (g = f) || getBit m g) := by
  have hf : f % 8 < 8 := Nat.mod_lt _ (by decide)
  rw [getBit_eq, getBit_eq, setBit]
  by_cases hd : g / 8 = f / 8
  · rw [if_pos hd, BitVec.getLsbD_or, show 1#8 <<< (f % 8) = BitVec.twoPow 8 (f % 8) from rfl,
      BitVec.getLsbD_twoPow, decide_eq_true hf, Bool.true_and, Bool.or_comm]
    congr 1
    by_cases hm : g % 8 = f % 8
    · simp [div_mod_inj hd hm]
    · have hne : g ≠ f := fun h => hm (by rw [h])
      simp [hne, Ne.symm hm]
  · have hne : g ≠ f := fun h => hd (by rw [h])
    rw [if_neg hd, decide_eq_false hne, Bool.false_or]

theorem getBit_clearBit (m : Nat → BitVec 8) (f g : Nat) :
    getBit (clearBit m f) g = (decide (g ≠ f) && getBit m g) := by
  have hg : g % 8 < 8 := Nat.mod_lt _ (by decide)
  have hf : f % 8 < 8 := Nat.mod_lt _ (by decide)
  rw [getBit_eq, getBit_eq, clearBit]
  by_cases hd : g / 8 = f / 8
  · rw [if_pos hd, BitVec.getLsbD_and, BitVec.getLsbD_not,
      show 1#8 <<< (f % 8) = BitVec.twoPow 8 (f % 8) from rfl, BitVec.getLsbD_twoPow,
      decide_eq_true hf, decide_eq_true hg, Bool.true_and, Bool.true_and, Bool.and_comm]
    congr 1
    by_cases hm : g % 8 = f % 8
    · simp [div_mod_inj hd hm]
    · have hne : g ≠ f := fun h => hm (by rw [h])
      simp [hne, Ne.symm hm]
  · have hne : g ≠ f := fun h => hd (by rw [h])
    rw [if_neg hd, decide_eq_true hne, Bool.true_and]

/-! ## Counting -/

/-- The clear bits below `n`. -/
def clearBits (m : Nat → BitVec 8) (n : Nat) : Finset Nat :=
  (Finset.range n).filter fun f => getBit m f = false

def clearCount (m : Nat → BitVec 8) (n : Nat) : Nat := (clearBits m n).card

theorem mem_clearBits {m : Nat → BitVec 8} {n f : Nat} :
    f ∈ clearBits m n ↔ f < n ∧ getBit m f = false := by
  rw [clearBits, Finset.mem_filter, Finset.mem_range]

theorem clearCount_le (m : Nat → BitVec 8) (n : Nat) : clearCount m n ≤ n := by
  have h := Finset.card_filter_le (Finset.range n) fun f => getBit m f = false
  rwa [Finset.card_range] at h

theorem clearCount_eq_zero {m : Nat → BitVec 8} {n : Nat} (h : ∀ f < n, getBit m f = true) :
    clearCount m n = 0 := by
  refine Finset.card_eq_zero.mpr (Finset.eq_empty_of_forall_notMem fun f hf => ?_)
  obtain ⟨hlt, hc⟩ := mem_clearBits.mp hf
  rw [h f hlt] at hc
  exact absurd hc (by simp)

/-- Setting a clear bit leaves one fewer. -/
theorem clearCount_setBit {m : Nat → BitVec 8} {n f : Nat} (hf : f < n)
    (hc : getBit m f = false) : clearCount (setBit m f) n + 1 = clearCount m n := by
  have hmem : f ∈ clearBits m n := mem_clearBits.mpr ⟨hf, hc⟩
  have herase : clearBits (setBit m f) n = (clearBits m n).erase f := by
    ext g
    rw [Finset.mem_erase, mem_clearBits, mem_clearBits, getBit_setBit]
    by_cases hgf : g = f <;> simp [hgf]
  rw [clearCount, herase]
  exact Finset.card_erase_add_one hmem

/-- Clearing a set bit leaves one more. -/
theorem clearCount_clearBit {m : Nat → BitVec 8} {n f : Nat} (hf : f < n)
    (hs : getBit m f = true) : clearCount (clearBit m f) n = clearCount m n + 1 := by
  have hmem : f ∉ clearBits m n := fun h => by
    rw [(mem_clearBits.mp h).2] at hs
    exact absurd hs (by simp)
  have hinsert : clearBits (clearBit m f) n = insert f (clearBits m n) := by
    ext g
    rw [Finset.mem_insert, mem_clearBits, mem_clearBits, getBit_clearBit]
    by_cases hgf : g = f <;> simp [hgf, hf]
  rw [clearCount, hinsert]
  exact Finset.card_insert_of_notMem hmem

end InaneOS.Lib
