import Mathlib.Algebra.Group.Nat.Defs
import Mathlib.Data.List.Basic
import Mathlib.Tactic.Common

/-!
# Little-endian numbers in byte memory

A byte memory is a function `Nat → UInt8`. `getLE m k a` reads the `k` bytes
from address `a` as a little-endian number, `putLE m k a v` stores the low `k`
bytes of `v` there. The two facts everything else uses are the round trip
(`getLE_putLE`: what was stored is read back, modulo `256 ^ k`) and the frame
(`putLE_other`: no byte outside the `k` stored ones changes). Where memory is kept in
words instead, a byte is a digit to base 256, and storing one is `setDigit`.
-/

namespace InaneOS.Lib

/-- One byte replaced. -/
def setByte (m : Nat → UInt8) (a : Nat) (b : UInt8) : Nat → UInt8 :=
  fun i => if i = a then b else m i

theorem setByte_same (m : Nat → UInt8) (a : Nat) (b : UInt8) : setByte m a b a = b := by
  simp [setByte]

theorem setByte_ne (m : Nat → UInt8) {a i : Nat} (b : UInt8) (h : i ≠ a) :
    setByte m a b i = m i := by
  simp [setByte, h]

/-- The `k` bytes from `a`, least significant first. -/
def getLE (m : Nat → UInt8) : Nat → Nat → Nat
  | 0, _ => 0
  | k + 1, a => (m a).toNat + 256 * getLE m k (a + 1)

/-- Store the low `k` bytes of `v` from `a` on, least significant first. -/
def putLE (m : Nat → UInt8) : Nat → Nat → Nat → Nat → UInt8
  | 0, _, _ => m
  | k + 1, a, v => setByte (putLE m k (a + 1) (v / 256)) a (UInt8.ofNat v)

theorem getLE_lt (m : Nat → UInt8) : ∀ (k a : Nat), getLE m k a < 256 ^ k
  | 0, _ => by simp [getLE]
  | k + 1, a => by
    have hrec := getLE_lt m k (a + 1)
    have hb := (m a).toNat_lt
    rw [getLE, Nat.pow_succ]
    omega

/-- Reading depends on the `k` bytes read and on nothing else. -/
theorem getLE_congr {m m' : Nat → UInt8} :
    ∀ {k a : Nat}, (∀ i, a ≤ i → i < a + k → m i = m' i) → getLE m k a = getLE m' k a
  | 0, _, _ => rfl
  | k + 1, a, h => by
    rw [getLE, getLE, h a (Nat.le_refl _) (by omega),
      getLE_congr fun i hi hik => h i (by omega) (by omega)]

/-- A store touches only the `k` bytes it names. -/
theorem putLE_other (m : Nat → UInt8) :
    ∀ (k a v : Nat) {i : Nat}, i < a ∨ a + k ≤ i → putLE m k a v i = m i
  | 0, _, _, _, _ => rfl
  | k + 1, a, v, i, h => by
    rw [putLE, setByte_ne _ _ (by omega)]
    exact putLE_other m k (a + 1) (v / 256) (by omega)

/-- Reading back a store gives the stored value modulo `256 ^ k`. -/
theorem getLE_putLE (m : Nat → UInt8) :
    ∀ (k a v : Nat), getLE (putLE m k a v) k a = v % 256 ^ k
  | 0, _, v => by simp [getLE, Nat.mod_one]
  | k + 1, a, v => by
    have htail : getLE (putLE m (k + 1) a v) k (a + 1) = v / 256 % 256 ^ k := by
      rw [← getLE_putLE m k (a + 1) (v / 256)]
      refine getLE_congr fun i hi _ => ?_
      rw [putLE, setByte_ne _ _ (by omega)]
    have hhead : (putLE m (k + 1) a v a).toNat = v % 256 := by
      rw [putLE, setByte_same]
      simp
    rw [getLE, htail, hhead, Nat.pow_succ, Nat.mul_comm (256 ^ k) 256, Nat.mod_mul]

/-- Equal readings are equal bytes. -/
theorem getLE_inj {m m' : Nat → UInt8} :
    ∀ {k a : Nat}, getLE m k a = getLE m' k a → ∀ i, a ≤ i → i < a + k → m i = m' i
  | 0, _, _, _, _, _ => by omega
  | k + 1, a, h, i, hi, hik => by
    have hb := (m a).toNat_lt
    have hb' := (m' a).toNat_lt
    rw [getLE, getLE] at h
    rcases Nat.lt_or_ge a i with hlt | hge
    · exact getLE_inj (k := k) (a := a + 1) (by omega) i (by omega) (by omega)
    · have hia : i = a := by omega
      subst hia
      exact UInt8.toNat_inj.mp (by omega)

/-- The first `k` elements, read one by one. -/
theorem take_eq_map_getD {buf : List UInt8} {k : Nat} (hk : k ≤ buf.length) :
    (List.range k).map (fun i => buf.getD i 0) = buf.take k := by
  refine List.ext_getElem (by simp [hk]) fun i h1 h2 => ?_
  simp only [List.length_map, List.length_range] at h1
  rw [List.getElem_map, List.getElem_range, List.getElem_take, List.getD_eq_getElem?_getD,
    List.getElem?_eq_getElem (by omega)]
  rfl

/-! ## A byte of a word -/

/-- A number whose digit of weight `256 ^ i` is replaced by `b`. -/
def setDigit (w i b : Nat) : Nat := w - w / 256 ^ i % 256 * 256 ^ i + b * 256 ^ i

theorem setDigit_split (w i b : Nat) :
    setDigit w i b = (w / 256 ^ i / 256 * 256 + b) * 256 ^ i + w % 256 ^ i := by
  have hw := Nat.div_add_mod w (256 ^ i)
  have hq := Nat.div_add_mod (w / 256 ^ i) 256
  obtain ⟨B, hB⟩ : ∃ B, 256 ^ i = B := ⟨_, rfl⟩
  unfold setDigit
  rw [hB] at hw hq ⊢
  obtain ⟨h, hh⟩ : ∃ h, w / B / 256 = h := ⟨_, rfl⟩
  obtain ⟨d, hd⟩ : ∃ d, w / B % 256 = d := ⟨_, rfl⟩
  obtain ⟨r, hr⟩ : ∃ r, w % B = r := ⟨_, rfl⟩
  rw [hh, hd] at hq
  rw [hr, ← hq] at hw
  rw [hh, hd, hr, ← hw]
  have h1 : B * (256 * h + d) = h * 256 * B + d * B := by
    rw [Nat.mul_add, Nat.mul_comm B (256 * h), Nat.mul_comm B d, Nat.mul_comm 256 h]
  rw [h1, Nat.add_mul]
  omega

theorem setDigit_digit (w : Nat) {i b : Nat} (hb : b < 256) (j : Nat) :
    setDigit w i b / 256 ^ j % 256 = if j = i then b else w / 256 ^ j % 256 := by
  have hpos : ∀ k, 0 < 256 ^ k := fun k => Nat.pow_pos (by decide)
  have hr : w % 256 ^ i < 256 ^ i := Nat.mod_lt _ (hpos i)
  rw [setDigit_split]
  split
  · next h =>
    rw [h, Nat.mul_comm, Nat.mul_add_div (hpos i), Nat.div_eq_of_lt hr]
    omega
  · next h =>
    rcases Nat.lt_or_gt_of_ne h with hlt | hgt
    · -- a lower digit
      obtain ⟨k, rfl⟩ : ∃ k, i = j + (k + 1) := ⟨i - j - 1, by omega⟩
      have hlow : ∀ x y : Nat, (x * 256 ^ (j + (k + 1)) + y) / 256 ^ j % 256 =
        y / 256 ^ j % 256 := by
        intro x y
        rw [show x * 256 ^ (j + (k + 1)) = 256 ^ j * (x * 256 ^ k * 256) by
          rw [Nat.pow_add, Nat.pow_succ]
          ac_rfl]
        rw [Nat.mul_add_div (hpos j)]
        omega
      rw [hlow]
      have hw := Nat.div_add_mod w (256 ^ (j + (k + 1)))
      rw [Nat.mul_comm] at hw
      rw [← hlow (w / 256 ^ (j + (k + 1))), hw]
    · -- a higher digit
      obtain ⟨k, rfl⟩ : ∃ k, j = i + (1 + k) := ⟨j - i - 1, by omega⟩
      have hhigh : ∀ x : Nat, x / 256 ^ (i + (1 + k)) = x / 256 ^ i / 256 / 256 ^ k := by
        intro x
        rw [Nat.pow_add, Nat.pow_add, Nat.div_div_eq_div_mul, Nat.div_div_eq_div_mul, Nat.pow_one]
      rw [hhigh, hhigh, Nat.mul_comm, Nat.mul_add_div (hpos i), Nat.div_eq_of_lt hr]
      rw [show (w / 256 ^ i / 256 * 256 + b + 0) / 256 = w / 256 ^ i / 256 by omega]
end InaneOS.Lib
