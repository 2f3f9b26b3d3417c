import InaneOS.Fat.Disk
import InaneOS.Lib.Poll
import InaneOS.Lib.Tab

/-!
# The ATA driver: `drivers/ide/ide.c`

The driver knows the drive through I/O ports only, so it is written here for any device
behind ports (`Bus`): a read of a port gives a value and may change the device. What a
caller needs of it is stated in `InaneOS.Drivers.Ata` for the device the ports lead to.

A buffer is the 512 bytes it holds; words are stored low byte first.
-/

namespace InaneOS.Drivers

open InaneOS.Lib
open InaneOS.Fat (Sector)

/-- `inb`, `outb`, `inw` and `outw` of `io.h`, for a device with states `σ`. -/
structure Bus (σ : Type) where
  inb : Nat → σ → UInt8 × σ
  outb : Nat → UInt8 → σ → σ
  inw : Nat → σ → UInt16 × σ
  outw : Nat → UInt16 → σ → σ

def ideBase : Nat := 0x1F0
def ideCtl : Nat := 0x3F6
def regData : Nat := 0
def regCount : Nat := 2
def regLba0 : Nat := 3
def regLba1 : Nat := 4
def regLba2 : Nat := 5
def regDrive : Nat := 6
def regCmd : Nat := 7
def stBsy : UInt8 := 0x80
def stDrdy : UInt8 := 0x40
def stDrq : UInt8 := 0x08
def stErr : UInt8 := 0x01
def cmdIdentify : UInt8 := 0xEC
def cmdReadExt : UInt8 := 0x24
def cmdWriteExt : UInt8 := 0x34
def cmdFlushExt : UInt8 := 0xEA

/-- The statics `total` and `present`, and the device. -/
structure Ide (σ : Type) where
  total : Nat
  present : Bool
  dev : σ

/-- `w[i]` for a buffer at `w`. -/
def wordAt (buf : Sector) (i : Nat) : UInt16 :=
  (buf (2 * i)).toUInt16 ||| (buf (2 * i + 1)).toUInt16 <<< 8

/-- The byte at `i` of a buffer whose words are `ws`. -/
def byteOf (ws : List UInt16) (i : Nat) : UInt8 :=
  if i % 2 = 0 then (ws.getD (i / 2) 0).toUInt8 else (ws.getD (i / 2) 0 >>> 8).toUInt8

/-- The bytes of a sector. -/
def bytesOf (s : Sector) : List UInt8 := tab 512 s

section Driver

variable {σ : Type} (b : Bus σ)

def delay400 (d : σ) : σ :=
  (b.inb ideCtl (b.inb ideCtl (b.inb ideCtl (b.inb ideCtl d).2).2).2).2

def waitClear (mask : UInt8) (timeout : Nat) (d : σ) : Bool × σ :=
  poll (b.inb (ideBase + regCmd)) (fun v => v &&& mask == 0) timeout d

def waitSet (mask : UInt8) (timeout : Nat) (d : σ) : Bool × σ :=
  poll (b.inb (ideBase + regCmd)) (fun v => v &&& mask != 0) timeout d

/-- `for (i..) w[i] = inw(BASE + REG_DATA)`, for the `n` words that are left. -/
def readWords : Nat → σ → List UInt16 × σ
  | 0, d => ([], d)
  | n + 1, d =>
    let (w, d) := b.inw (ideBase + regData) d
    let (ws, d) := readWords n d
    (w :: ws, d)

def writeWords : List UInt16 → σ → σ
  | [], d => d
  | w :: ws, d => writeWords ws (b.outw (ideBase + regData) w d)

/-- The end of `ide_init`: the drive is waited for, and its identification read. -/
def ideLearn (s : Ide σ) (d : σ) : Bool × Ide σ :=
  let (ok, d) := waitClear b stBsy 100000 d
  if !ok then (false, { s with dev := d })
  else
    let (v, d) := b.inb (ideBase + regCmd) d
    if v &&& stErr ≠ 0 then (false, { s with dev := d })
    else
      let (ok, d) := waitSet b stDrq 100000 d
      if !ok then (false, { s with dev := d })
      else
        let (id, d) := readWords b 256 d
        if id.getD 83 0 &&& 0x400 = 0 then (false, { s with dev := d })
        else
          (true, {
            total := (id.getD 100 0).toNat ||| (id.getD 101 0).toNat <<< 16 |||
              (id.getD 102 0).toNat <<< 32 ||| (id.getD 103 0).toNat <<< 48
            present := true
            dev := d })

/-- `ide_init() == 0` -/
def ideInit (s : Ide σ) : Bool × Ide σ :=
  let (v, d) := b.inb (ideBase + regCmd) s.dev
  if v = 0xFF then (false, { s with dev := d })
  else
    let d := delay400 b (b.outb (ideBase + regDrive) 0xE0 d)
    let d := delay400 b (b.outb (ideBase + regCmd) cmdIdentify d)
    let (v, d) := b.inb (ideBase + regCmd) d
    if v = 0 then (false, { s with dev := d }) else ideLearn b s d

/-- The registers for one sector at `lba`, the high halves first, and the command. -/
def issue (lba : Nat) (cmd : UInt8) (d : σ) : σ :=
  let d := b.outb (ideBase + regDrive) 0xE0 d
  let d := b.outb (ideBase + regCount) 0 d
  let d := b.outb (ideBase + regLba0) (UInt8.ofNat (lba / 2 ^ 24)) d
  let d := b.outb (ideBase + regLba1) (UInt8.ofNat (lba / 2 ^ 32)) d
  let d := b.outb (ideBase + regLba2) (UInt8.ofNat (lba / 2 ^ 40)) d
  let d := b.outb (ideBase + regCount) 1 d
  let d := b.outb (ideBase + regLba0) (UInt8.ofNat lba) d
  let d := b.outb (ideBase + regLba1) (UInt8.ofNat (lba / 2 ^ 8)) d
  let d := b.outb (ideBase + regLba2) (UInt8.ofNat (lba / 2 ^ 16)) d
  b.outb (ideBase + regCmd) cmd d

/-- What `ide_read` and `ide_write` have in common: the device is waited for, gets the
command and is waited for again, until it asks for the data. -/
def request (lba : Nat) (cmd : UInt8) (d : σ) : Bool × σ :=
  let (ok, d) := waitClear b stBsy 100000 d
  if !ok then (false, d)
  else
    let (ok, d) := waitClear b stBsy 100000 (issue b lba cmd d)
    if !ok then (false, d) else waitSet b stDrq 100000 d

/-- `ide_read(lba, buf)`: the bytes stored in `buf`, or `none` for `-1`. -/
def ideRead (lba : Nat) (s : Ide σ) : Option (List UInt8) × Ide σ :=
  if !s.present ∨ lba ≥ s.total then (none, s)
  else
    let (ok, d) := request b lba cmdReadExt s.dev
    if !ok then (none, { s with dev := d })
    else
      let (ws, d) := readWords b 256 d
      (some (tab 512 (byteOf ws)), { s with dev := delay400 b d })

/-- `ide_write(lba, buf) == 0` -/
def ideWrite (lba : Nat) (buf : Sector) (s : Ide σ) : Bool × Ide σ :=
  if !s.present ∨ lba ≥ s.total then (false, s)
  else
    let (ok, d) := request b lba cmdWriteExt s.dev
    if !ok then (false, { s with dev := d })
    else
      let d := writeWords b (tab 256 (wordAt buf)) d
      let (ok, d) := waitClear b stBsy 100000 (b.outb (ideBase + regCmd) cmdFlushExt d)
      if !ok then (false, { s with dev := d }) else (true, { s with dev := delay400 b d })

end Driver

/-! ## Words and bytes -/

theorem word_low (x y : UInt8) : (x.toUInt16 ||| y.toUInt16 <<< 8).toUInt8 = x := by
  apply UInt8.toBitVec_inj.mp
  ext i hi
  simp

theorem word_high (x y : UInt8) : ((x.toUInt16 ||| y.toUInt16 <<< 8) >>> 8).toUInt8 = y := by
  apply UInt8.toBitVec_inj.mp
  ext i hi
  have h8 : 8 + i < 16 := by omega
  have h16 : i < 16 := by omega
  simpa [h8, h16] using BitVec.getLsbD_eq_getElem hi

theorem byteOf_wordAt (s : Sector) {i : Nat} (hi : i < 512) :
    byteOf (tab 256 (wordAt s)) i = s i := by
  have hget : (tab 256 (wordAt s)).getD (i / 2) 0 = wordAt s (i / 2) := by
    rw [List.getD_eq_getElem?_getD, tab_getElem?, if_pos (by omega), Option.getD_some]
  unfold byteOf
  rw [hget]
  unfold wordAt
  split
  · next heven =>
    rw [word_low, show 2 * (i / 2) = i by omega]
  · next hodd =>
    rw [word_high, show 2 * (i / 2) + 1 = i by omega]

/-- A buffer that goes out word by word comes back byte by byte. -/
theorem bytes_wordAt (s : Sector) : tab 512 (byteOf (tab 256 (wordAt s))) = bytesOf s :=
  tab_congr fun _ hi => byteOf_wordAt s hi

end InaneOS.Drivers
