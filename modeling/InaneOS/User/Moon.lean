import InaneOS.Fs.Mount
import InaneOS.User.Expr
import Mathlib.Data.Nat.Digits.Defs

/-!
# The command `moon`: `user/shell.c` and the case `SYS_MOUNT`

`moon n` mounts partition `n`. The number goes through a `long` that comes round, then
through a register whose negative values mean unmount, and is cut to an `int` last. So a
number far behind the last partition may unmount (from `2 ^ 63` on) or mount a partition
that was not named (from `2 ^ 32` on).

`moonSelects_iff` says for which numerals and which states none of that happens.
-/

namespace InaneOS.User

open InaneOS.Fat InaneOS.Fs

/-- The loop of `parse_idx`, with `v` and `digits`: a `long` and an `int`, which come round. -/
def idxLoop : List UInt8 → BitVec 64 → BitVec 32 → BitVec 64 × BitVec 32 × List UInt8
  | [], v, digits => (v, digits, [])
  | c :: cs, v, digits =>
    if isDigit c then idxLoop cs (v * 10 + BitVec.ofNat 64 (c.toNat - 48)) (digits + 1)
    else (v, digits, c :: cs)

/-- `parse_idx(s, out)`: what is stored in `out`, or nothing for -1. -/
def parseIdx (s : List UInt8) : Option (BitVec 64) :=
  let (v, digits, rest) := idxLoop s 0 0
  if digits = 0 ∨ rest ≠ [] then none else some v

/-- The case `SYS_MOUNT`: what is left in `rax`. -/
def sysMount (rdi : BitVec 64) (s : FS) : BitVec 64 × FS :=
  if rdi.toInt < 0 then (0, fsUnmount s)
  else
    let (r, s) := fsMountPart (rdi.setWidth 32).toInt s
    (BitVec.ofInt 64 r, s)

/-- `moon` with an argument, blanks at both ends taken off: whether it was done without
`cannot moon`, and the state after it. -/
def moon (arg : List UInt8) (s : FS) : Bool × FS :=
  if Fs.sameCondition arg [45, 117] then (true, (sysMount (-1) s).2)
  else
    match parseIdx arg with
    | none => (false, s)
    | some idx =>
      let (r, s) := sysMount idx s
      (r == 0, s)

/-- `PART_MAX` -/
def partMax : Nat := 4

/-- A string of decimal digits, not empty. -/
structure Numeral where
  bytes : List UInt8
  ne : bytes ≠ []
  digits : ∀ c ∈ bytes, isDigit c = true

/-- The number it denotes. -/
def Numeral.value (d : Numeral) : Nat :=
  Nat.ofDigits 10 (d.bytes.reverse.map fun c => c.toNat - 48)

/-! ## The number that is parsed -/

/-- Digits read after `v`. -/
def readOn (v : Nat) (ds : List UInt8) : Nat := ds.foldl (fun v c => v * 10 + (c.toNat - 48)) v

theorem Numeral.value_eq (d : Numeral) : d.value = readOn 0 d.bytes := by
  rw [Numeral.value, Nat.ofDigits_eq_foldr, List.foldr_map, List.foldr_reverse, readOn]
  congr 1
  funext v c
  rw [Nat.cast_id, Nat.mul_comm 10 v, Nat.add_comm]

theorem idxLoop_digits (ds : List UInt8) : (∀ c ∈ ds, isDigit c = true) → ∀ v k : Nat,
    idxLoop ds (BitVec.ofNat 64 v) (BitVec.ofNat 32 k) =
      (BitVec.ofNat 64 (readOn v ds), BitVec.ofNat 32 (k + ds.length), []) := by
  induction ds with
  | nil => exact fun _ _ _ => rfl
  | cons c ds ih =>
    intro hd v k
    have hc : isDigit c = true := hd c (List.mem_cons_self ..)
    have hv : BitVec.ofNat 64 v * 10 + BitVec.ofNat 64 (c.toNat - 48) =
        BitVec.ofNat 64 (v * 10 + (c.toNat - 48)) := by
      rw [BitVec.ofNat_add, BitVec.ofNat_mul]
      rfl
    have hk : BitVec.ofNat 32 k + 1 = BitVec.ofNat 32 (k + 1) := by
      rw [BitVec.ofNat_add]
      rfl
    rw [idxLoop, if_pos hc, hv, hk, ih fun c hm => hd c (List.mem_cons_of_mem _ hm)]
    have hlen : k + 1 + ds.length = k + (c :: ds).length := by
      rw [List.length_cons]
      omega
    rw [hlen]
    rfl

/-- The numeral is refused only when the count of its digits comes round to 0. -/
theorem parseIdx_numeral (d : Numeral) :
    parseIdx d.bytes =
      if 2 ^ 32 ∣ d.bytes.length then none else some (BitVec.ofNat 64 d.value) := by
  have hloop : idxLoop d.bytes 0 0 =
      (BitVec.ofNat 64 d.value, BitVec.ofNat 32 d.bytes.length, []) := by
    rw [Numeral.value_eq, ← Nat.zero_add d.bytes.length]
    exact idxLoop_digits d.bytes d.digits 0 0
  have hzero : BitVec.ofNat 32 d.bytes.length = 0 ↔ 2 ^ 32 ∣ d.bytes.length := by
    rw [BitVec.toNat_eq, BitVec.toNat_ofNat, Nat.dvd_iff_mod_eq_zero]
    rfl
  rw [parseIdx, hloop]
  dsimp only
  by_cases hlen : 2 ^ 32 ∣ d.bytes.length
  · rw [if_pos (Or.inl (hzero.mpr hlen)), if_pos hlen]
  · rw [if_neg (fun h => h.elim (fun h => hlen (hzero.mp h)) (fun h => h rfl)), if_neg hlen]

/-- A numeral is not the option `-u`. -/
theorem moon_numeral (d : Numeral) (s : FS) :
    moon d.bytes s =
      if 2 ^ 32 ∣ d.bytes.length then (false, s)
      else
        let (r, s) := sysMount (BitVec.ofNat 64 d.value) s
        (r == 0, s) := by
  have hopt : Fs.sameCondition d.bytes [45, 117] = false := by
    cases hb : d.bytes with
    | nil => exact absurd hb d.ne
    | cons c cs =>
      have hc := d.digits c (by rw [hb]; exact List.mem_cons_self ..)
      have hne : c ≠ 45 := by
        intro he
        subst he
        exact absurd hc (by decide)
      simp [Fs.sameCondition, nameSame, hne]
  rw [moon, hopt, parseIdx_numeral, if_neg (by simp)]
  by_cases hlen : 2 ^ 32 ∣ d.bytes.length
  · rw [if_pos hlen, if_pos hlen]
  · rw [if_neg hlen, if_neg hlen]

/-! ## The system call -/

/-- From the half of the register on the call is an unmount. -/
theorem sysMount_high {n : Nat} (h : 2 ^ 63 ≤ n % 2 ^ 64) (s : FS) :
    sysMount (BitVec.ofNat 64 n) s = (0, fsUnmount s) := by
  refine if_pos ?_
  rw [BitVec.toInt_ofNat', Int.bmod_def]
  omega

theorem sysMount_low {n : Nat} (h : n % 2 ^ 64 < 2 ^ 63) (s : FS) :
    sysMount (BitVec.ofNat 64 n) s =
      (BitVec.ofInt 64 (fsMountPart (BitVec.ofNat 32 n).toInt s).1,
        (fsMountPart (BitVec.ofNat 32 n).toInt s).2) := by
  have hpos : ¬ (BitVec.ofNat 64 n).toInt < 0 := by
    rw [BitVec.toInt_ofNat', Int.bmod_def]
    omega
  rw [sysMount, if_neg hpos, BitVec.setWidth_ofNat_of_le (by omega)]

/-- What `part_get` finds for the index that is left. -/
theorem partGet_cut {s : FS} (hparts : s.parts.length ≤ partMax) (n : Nat) :
    partGet (BitVec.ofNat 32 n).toInt s = s.parts[n % 2 ^ 32]? := by
  have hmax : s.parts.length ≤ 4 := hparts
  have hint : (BitVec.ofNat 32 n).toInt = (n : Int).bmod (2 ^ 32) := BitVec.toInt_ofNat' n
  rw [Int.bmod_def] at hint
  by_cases hlt : n % 2 ^ 32 < s.parts.length
  · have heq : (BitVec.ofNat 32 n).toInt = (n % 2 ^ 32 : Nat) := by omega
    rw [partGet, heq, if_neg (by omega), Int.toNat_natCast]
  · rw [partGet, if_pos (by omega), List.getElem?_eq_none (by omega)]

/-- The boot sectors `fat_mount` accepts. -/
structure Fat32At (lba : Nat) (f : Vol) : Prop where
  reads : f.disk.drive.reads lba
  signed : f.disk.data lba 510 = 0x55 ∧ f.disk.data lba 511 = 0xAA
  bps : rd16 (f.disk.data lba) 11 = 512
  secPerClus : (f.disk.data lba 13).toNat ≠ 0
  numFats : (f.disk.data lba 16).toNat ≠ 0
  fatSz : rd32 (f.disk.data lba) 36 ≠ 0
  rootClus : ¬ rd32 (f.disk.data lba) 44 < 2

theorem fatMount_iff {lba : Nat} {f : Vol} : (fatMount lba f).1 = true ↔ Fat32At lba f := by
  unfold fatMount ideRead
  by_cases hread : f.disk.drive.reads lba
  · rw [if_pos hread]
    dsimp only
    by_cases hsig : f.disk.data lba 510 ≠ 0x55 ∨ f.disk.data lba 511 ≠ 0xAA
    · rw [if_pos hsig]
      refine iff_of_false (by simp) fun h => ?_
      exact hsig.elim (fun hno => hno h.signed.1) fun hno => hno h.signed.2
    · rw [if_neg hsig]
      push Not at hsig
      split
      · next hbad =>
        refine iff_of_false (by simp) fun h => ?_
        rcases hbad with h1 | h1 | h1 | h1 | h1
        · exact h1 h.bps
        · exact h.secPerClus h1
        · exact h.numFats h1
        · exact h.fatSz h1
        · exact h.rootClus h1
      · next hgood =>
        push Not at hgood
        obtain ⟨h1, h2, h3, h4, h5⟩ := hgood
        exact iff_of_true rfl ⟨hread, hsig, h1, h2, h3, h4, Nat.not_lt.mpr h5⟩
  · rw [if_neg hread]
    exact iff_of_false (by simp) fun h => hread h.reads

/-- The mounted file system is as it was: the same partition is mounted, or none, and the
statics a mounted volume is read with are the same. -/
structure MountKept (s s' : FS) : Prop where
  mounted : s'.mounted = s.mounted
  idx : s'.mountedIdx = s.mountedIdx
  isMounted : s'.fat.isMounted = s.fat.isMounted
  volume : s.fat.isMounted = true → Unchanged s s'

theorem MountKept.refl (s : FS) : MountKept s s := ⟨rfl, rfl, rfl, fun _ => ⟨s.fat.sec, rfl⟩⟩

theorem fatMount_isMounted {lba : Nat} {f : Vol} (h : (fatMount lba f).1 = false) :
    (fatMount lba f).2.isMounted = f.isMounted := by
  unfold fatMount ideRead at h ⊢
  split
  · rfl
  · next f' hf =>
    -- a sector that is read leaves the flag alone
    have hkept : f'.isMounted = f.isMounted := by
      split at hf
      · obtain rfl := Option.some.inj hf
        rfl
      · exact absurd hf (by simp)
    rw [hf] at h
    dsimp only at h ⊢
    split
    · exact hkept
    · next hsig =>
      rw [if_neg hsig] at h
      split
      · exact hkept
      · next hgood =>
        rw [if_neg hgood] at h
        exact absurd h (by simp)

/-- What the shell compares: the results the two ends of `fs_mount_part` leave in `rax`. -/
theorem rax_results : (BitVec.ofInt 64 fsBadpath == 0) = false ∧
    (BitVec.ofInt 64 fsOk == 0) = true := by decide

/-- A mount fails and leaves the mounted file system alone when it finds no partition, or one
that is not FAT32 and whose boot sector agrees with the volume in use. -/
theorem fsMountPart_kept (idx : Int) (s : FS) :
    ((BitVec.ofInt 64 (fsMountPart idx s).1 == 0) = false ∧ MountKept s (fsMountPart idx s).2) ↔
      ∀ p, partGet idx s = some p →
        ¬ Fat32At p.lba s.fat ∧ (s.fat.isMounted = true → BootAgrees p.lba s.fat) := by
  cases hp : partGet idx s with
  | none =>
    have hrun : fsMountPart idx s = (fsBadpath, s) := by rw [fsMountPart, hp]
    rw [hrun]
    exact iff_of_true ⟨rax_results.1, MountKept.refl s⟩ (by simp)
  | some p =>
    have hone : (∀ q, some p = some q →
        ¬ Fat32At q.lba s.fat ∧ (s.fat.isMounted = true → BootAgrees q.lba s.fat)) ↔
          ¬ Fat32At p.lba s.fat ∧ (s.fat.isMounted = true → BootAgrees p.lba s.fat) := by simp
    rw [hone, ← fatMount_iff]
    cases hm : fatMount p.lba s.fat with
    | mk ok f =>
      cases ok with
      | true =>
        have hrun : fsMountPart idx s =
            (fsOk, { s with fat := f, mounted := true, mountedIdx := idx }) := by
          rw [fsMountPart, hp]
          dsimp only
          rw [hm]
        rw [hrun]
        exact iff_of_false (fun h => absurd (rax_results.2.symm.trans h.1) (by decide)) fun h =>
          h.1 rfl
      | false =>
        have hrun : fsMountPart idx s = (fsBadpath, { s with fat := f }) := by
          rw [fsMountPart, hp]
          dsimp only
          rw [hm]
        have hvol : Unchanged s { s with fat := f } ↔ BootAgrees p.lba s.fat := by
          rw [← fatMount_failed hm]
          exact unchanged_fat
        have hsame : f.isMounted = s.fat.isMounted := by
          have hfail : (fatMount p.lba s.fat).1 = false := by rw [hm]
          have h := fatMount_isMounted hfail
          rwa [hm] at h
        rw [hrun]
        constructor
        · intro h
          exact ⟨by simp, fun hmt => hvol.mp (h.2.volume hmt)⟩
        · intro h
          exact ⟨rax_results.1, ⟨rfl, rfl, hsame, fun hmt => hvol.mpr (h.2 hmt)⟩⟩

/-! ## The command -/

/-- `moon` with a numeral selects that partition, or fails and changes nothing. -/
structure MoonSelects (d : Numeral) (s : FS) : Prop where
  found : d.value < s.parts.length → ∃ v, parseIdx d.bytes = some v ∧
    sysMount v s =
      (BitVec.ofInt 64 (fsMountPart d.value s).1, (fsMountPart d.value s).2)
  other : s.parts.length ≤ d.value →
    (moon d.bytes s).1 = false ∧ MountKept s (moon d.bytes s).2

/-- The numeral does not come round to a number that does something: it names a partition, or
it stays below the half of a `long` and what is left of it in 32 bits names none, or one that
cannot be mounted and whose boot sector agrees with a volume in use. A number of digits that
comes round to 0 is only good for a numeral behind the last partition. -/
def StaysAway (d : Numeral) (s : FS) : Prop :=
  if 2 ^ 32 ∣ d.bytes.length then s.parts.length ≤ d.value
  else d.value < s.parts.length ∨
    d.value % 2 ^ 64 < 2 ^ 63 ∧ ∀ p, s.parts[d.value % 2 ^ 32]? = some p →
      ¬ Fat32At p.lba s.fat ∧ (s.fat.isMounted = true → BootAgrees p.lba s.fat)

/-- **`moon n` selects partition `n` or nothing** exactly for the numerals that stay away from
the other partitions and from the unmount. -/
theorem moonSelects_iff (d : Numeral) {s : FS} (hparts : s.parts.length ≤ partMax) :
    MoonSelects d s ↔ StaysAway d s := by
  have hmax : s.parts.length ≤ 4 := hparts
  have hparse := parseIdx_numeral d
  have hmoon := moon_numeral d s
  unfold StaysAway
  by_cases hlen : 2 ^ 32 ∣ d.bytes.length
  · rw [if_pos hlen] at hparse hmoon ⊢
    constructor
    · intro h
      by_contra hlt
      obtain ⟨v, hv, -⟩ := h.found (Nat.lt_of_not_le hlt)
      exact absurd (hparse.symm.trans hv) (by simp)
    · intro hle
      rw [← not_lt] at hle
      exact ⟨fun hlt => absurd hlt hle, fun _ => by rw [hmoon]; exact ⟨rfl, MountKept.refl s⟩⟩
  · rw [if_neg hlen] at hparse hmoon ⊢
    by_cases hlt : d.value < s.parts.length
    · -- a partition's number is small enough to come through
      refine iff_of_true ⟨fun _ => ⟨_, hparse, ?_⟩, fun hle => absurd hlt (Nat.not_lt.mpr hle)⟩
        (Or.inl hlt)
      have hint : (BitVec.ofNat 32 d.value).toInt = d.value := by
        rw [BitVec.toInt_ofNat', Int.bmod_def]
        omega
      rw [sysMount_low (by omega), hint]
    · rw [or_iff_right hlt]
      have hother : MoonSelects d s ↔
          (moon d.bytes s).1 = false ∧ MountKept s (moon d.bytes s).2 :=
        ⟨fun h => h.other (Nat.le_of_not_lt hlt), fun h => ⟨fun hc => absurd hc hlt, fun _ => h⟩⟩
      rw [hother, hmoon]
      by_cases hlow : d.value % 2 ^ 64 < 2 ^ 63
      · rw [sysMount_low hlow, and_iff_right hlow, ← partGet_cut hparts]
        exact fsMountPart_kept _ s
      · rw [sysMount_high (Nat.le_of_not_lt hlow)]
        -- the unmount is no failure
        exact iff_of_false (fun h => Bool.noConfusion (show true = false from h.1)) fun h =>
          hlow h.1

/-- `moon 4294967298` finds the third entry, whose sector is not signed. -/
theorem moonSelects_iff_unsigned : MoonSelects
    ⟨[52, 50, 57, 52, 57, 54, 55, 50, 57, 56], by decide, List.all_eq_true.mp rfl⟩ sampleFS := by
  refine (moonSelects_iff _ (by decide)).mpr ?_
  have hlen : ¬ 2 ^ 32 ∣ ([52, 50, 57, 52, 57, 54, 55, 50, 57, 56] : List UInt8).length := by decide
  refine (if_neg hlen).mpr (Or.inr ⟨by decide, fun p hp => ?_⟩)
  obtain rfl : (⟨0x83, 51, 80⟩ : Part) = p := Option.some.inj hp
  exact ⟨fun h => absurd h.signed.1 (by decide), fun _ _ hsig => absurd hsig (by decide)⟩

/-- `9223372036854775808` -/
def twoTo63 : Numeral :=
  ⟨[57, 50, 50, 51, 51, 55, 50, 48, 51, 54, 56, 53, 52, 55, 55, 53, 56, 48, 56], by decide,
    List.all_eq_true.mp rfl⟩

/-- `4294967296` -/
def twoTo32 : Numeral :=
  ⟨[52, 50, 57, 52, 57, 54, 55, 50, 57, 54], by decide, List.all_eq_true.mp rfl⟩

/-- `moon 9223372036854775808` takes the mounted volume away and reports nothing, and
`moon 4294967296` mounts the first partition where there is only one. -/
theorem moon_comes_round :
    ¬ MoonSelects twoTo63 sampleFS ∧ sampleFS.mounted = true ∧
      (moon twoTo63.bytes sampleFS).1 = true ∧ (moon twoTo63.bytes sampleFS).2.mounted = false ∧
    ¬ MoonSelects twoTo32 roomyFS ∧ roomyFS.parts.length = 1 ∧
      (moon twoTo32.bytes roomyFS).1 = true ∧ (moon twoTo32.bytes roomyFS).2.mountedIdx = 0 := by
  have h63 : (moon twoTo63.bytes sampleFS).1 = true := by decide +kernel
  have h32 : (moon twoTo32.bytes roomyFS).1 = true := by decide +kernel
  refine ⟨fun h => ?_, rfl, h63, by decide +kernel, fun h => ?_, rfl, h32, by decide +kernel⟩
  · have hno := (h.other (by decide)).1
    exact absurd (h63.symm.trans hno) (by decide)
  · have hno := (h.other (by decide)).1
    exact absurd (h32.symm.trans hno) (by decide)

end InaneOS.User
