import InaneOS.Lib.Bytes
import InaneOS.Lib.Trace
import Mathlib.Tactic.Ring

/-!
# Sectors, the disk, and the numbers stored in them

`ide_read` and `ide_write` of `drivers/ide/ide.c`, seen from their callers: some
sectors can be read and some can be written (`Drive`), a call for any other one
fails and changes nothing, and a read returns the bytes last written. A sound
drive fails exactly for the sectors that are not below `total`
(`Drive.ofSize`); one whose transfers time out fails for others too. Every
`ide_write` call is recorded in `log`, also a failing one, so that the order of
the writes can be talked about; `crash` is the disk a prefix of such a record
leaves behind.

`rd16`, `rd32`, `wr16` and `wr32` are the helpers of `kernel/fat.c`, tied to the
little-endian library by `rd32_eq` and its siblings.
-/

namespace InaneOS.Fat

open InaneOS.Lib

/-- The 512 bytes of a sector; the source only indexes `0 .. 511`. -/
abbrev Sector := Nat → UInt8

/-- The sectors `ide_read` and `ide_write` succeed for. -/
structure Drive where
  reads : Nat → Bool
  writes : Nat → Bool

/-- A drive of `total` sectors; an absent one has none, for `ide_init` sets `total` and
`present` together. -/
def Drive.ofSize (total : Nat) : Drive :=
  ⟨fun l => decide (l < total), fun l => decide (l < total)⟩

/-- The sector can be read and written. -/
def Drive.Works (v : Drive) (l : Nat) : Prop := v.reads l = true ∧ v.writes l = true

instance (v : Drive) (l : Nat) : Decidable (v.Works l) := inferInstanceAs (Decidable (_ ∧ _))

/-- The drive, the contents of its sectors, and the writes it was asked for. -/
structure Disk where
  drive : Drive
  data : Nat → Sector
  log : List (Nat × Sector)

/-- The effect of one `ide_write` call. -/
def Disk.put (d : Disk) (w : Nat × Sector) : Disk :=
  { d with
    data := fun l => if l = w.1 ∧ d.drive.writes w.1 then w.2 else d.data l
    log := d.log ++ [w] }

/-- The disk after the writes `ws`, oldest first. -/
def Disk.crash (d : Disk) (ws : List (Nat × Sector)) : Disk :=
  ws.foldl Disk.put d

@[simp] theorem Disk.put_drive (d : Disk) (w : Nat × Sector) : (d.put w).drive = d.drive := rfl

@[simp] theorem Disk.put_log (d : Disk) (w : Nat × Sector) : (d.put w).log = d.log ++ [w] := rfl

theorem Disk.put_data (d : Disk) (w : Nat × Sector) (l : Nat) :
    (d.put w).data l = if l = w.1 ∧ d.drive.writes w.1 then w.2 else d.data l := rfl

theorem Disk.put_data_same (d : Disk) {l : Nat} {b : Sector} (h : d.drive.writes l) :
    (d.put (l, b)).data l = b := by
  rw [Disk.put_data, if_pos ⟨rfl, h⟩]

theorem Disk.put_data_ne (d : Disk) {w : Nat × Sector} {l : Nat} (h : l ≠ w.1) :
    (d.put w).data l = d.data l := by
  rw [Disk.put_data, if_neg fun hc => h hc.1]

theorem Disk.crash_nil (d : Disk) : d.crash [] = d := rfl

theorem Disk.crash_cons (d : Disk) (w : Nat × Sector) (ws : List (Nat × Sector)) :
    d.crash (w :: ws) = (d.put w).crash ws := rfl

theorem Disk.crash_append (d : Disk) (ws vs : List (Nat × Sector)) :
    d.crash (ws ++ vs) = (d.crash ws).crash vs := by
  unfold Disk.crash
  rw [List.foldl_append]

@[simp] theorem Disk.crash_drive : ∀ (ws : List (Nat × Sector)) (d : Disk),
    (d.crash ws).drive = d.drive
  | [], _ => rfl
  | w :: ws, d => Disk.crash_drive ws (d.put w)

@[simp] theorem Disk.crash_log : ∀ (ws : List (Nat × Sector)) (d : Disk),
    (d.crash ws).log = d.log ++ ws
  | [], d => by rw [Disk.crash_nil, List.append_nil]
  | w :: ws, d => by rw [Disk.crash_cons, Disk.crash_log ws, Disk.put_log, List.append_assoc]; rfl

/-! ## Numbers in a sector -/

def rd16 (p : Nat → UInt8) (o : Nat) : Nat :=
  (p o).toNat ||| (p (o + 1)).toNat <<< 8

def rd32 (p : Nat → UInt8) (o : Nat) : Nat :=
  (p o).toNat ||| (p (o + 1)).toNat <<< 8 ||| (p (o + 2)).toNat <<< 16 |||
    (p (o + 3)).toNat <<< 24

def wr16 (p : Nat → UInt8) (o v : Nat) : Nat → UInt8 :=
  setByte (setByte p o (UInt8.ofNat (v &&& 0xFF))) (o + 1) (UInt8.ofNat (v >>> 8 &&& 0xFF))

def wr32 (p : Nat → UInt8) (o v : Nat) : Nat → UInt8 :=
  setByte (setByte (setByte (setByte p o (UInt8.ofNat (v &&& 0xFF)))
    (o + 1) (UInt8.ofNat (v >>> 8 &&& 0xFF)))
    (o + 2) (UInt8.ofNat (v >>> 16 &&& 0xFF)))
    (o + 3) (UInt8.ofNat (v >>> 24 &&& 0xFF))

/-- Or-ing a value above the low `k` bits is adding it. -/
theorem or_shiftLeft {a k : Nat} (b : Nat) (h : a < 2 ^ k) : a ||| b <<< k = a + 2 ^ k * b := by
  have hadd := Nat.shiftLeft_add_eq_or_of_lt h b
  rw [Nat.shiftLeft_eq] at hadd ⊢
  rw [Nat.or_comm, ← hadd]
  ring

theorem rd16_eq (p : Nat → UInt8) (o : Nat) : rd16 p o = getLE p 2 o := by
  have h0 := (p o).toNat_lt
  rw [rd16, or_shiftLeft _ (by omega)]
  simp only [getLE]
  omega

theorem rd32_eq (p : Nat → UInt8) (o : Nat) : rd32 p o = getLE p 4 o := by
  have h0 := (p o).toNat_lt
  have h1 := (p (o + 1)).toNat_lt
  have h2 := (p (o + 2)).toNat_lt
  rw [rd32, or_shiftLeft (k := 8) _ (by omega), or_shiftLeft (k := 16) _ (by omega),
    or_shiftLeft (k := 24) _ (by omega)]
  simp only [getLE, Nat.add_assoc, Nat.reduceAdd]
  omega

/-- The byte `UInt8.ofNat` keeps is the low one, masked or not. -/
theorem ofNat_and_255 (v : Nat) : UInt8.ofNat (v &&& 0xFF) = UInt8.ofNat v := by
  rw [show (0xFF : Nat) = 2 ^ 8 - 1 from rfl, Nat.and_two_pow_sub_one_eq_mod]
  exact UInt8.toNat_inj.mp (by simp)

theorem wr16_eq (p : Nat → UInt8) (o v : Nat) : wr16 p o v = putLE p 2 o v := by
  funext i
  simp only [wr16, ofNat_and_255, Nat.shiftRight_eq_div_pow, putLE, setByte]
  split <;> split <;> first | rfl | omega

theorem wr32_eq (p : Nat → UInt8) (o v : Nat) : wr32 p o v = putLE p 4 o v := by
  funext i
  simp only [wr32, ofNat_and_255, Nat.shiftRight_eq_div_pow, putLE, setByte, Nat.div_div_eq_div_mul]
  repeat' split
  all_goals first | rfl | omega

/-- `wr32` then `rd32`, for a value that fits. -/
theorem rd32_wr32 (p : Nat → UInt8) (o : Nat) {v : Nat} (h : v < 2 ^ 32) :
    rd32 (wr32 p o v) o = v := by
  rw [rd32_eq, wr32_eq, getLE_putLE]
  exact Nat.mod_eq_of_lt h

theorem wr16_other (p : Nat → UInt8) {o v i : Nat} (h : i < o ∨ o + 2 ≤ i) :
    wr16 p o v i = p i := by
  rw [wr16_eq, putLE_other _ _ _ _ h]

theorem wr32_other (p : Nat → UInt8) {o v i : Nat} (h : i < o ∨ o + 4 ≤ i) :
    wr32 p o v i = p i := by
  rw [wr32_eq, putLE_other _ _ _ _ h]

theorem rd16_wr16 (p : Nat → UInt8) (o : Nat) {v : Nat} (h : v < 2 ^ 16) :
    rd16 (wr16 p o v) o = v := by
  rw [rd16_eq, wr16_eq, getLE_putLE]
  exact Nat.mod_eq_of_lt h

theorem rd16_congr {p q : Nat → UInt8} {o : Nat} (h : ∀ i, o ≤ i → i < o + 2 → p i = q i) :
    rd16 p o = rd16 q o := by
  rw [rd16_eq, rd16_eq, getLE_congr h]

theorem rd32_congr {p q : Nat → UInt8} {o : Nat} (h : ∀ i, o ≤ i → i < o + 4 → p i = q i) :
    rd32 p o = rd32 q o := by
  rw [rd32_eq, rd32_eq, getLE_congr h]

end InaneOS.Fat
