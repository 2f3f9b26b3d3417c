import InaneOS.Fat.Names

/-!
# The mounted volume: `fat_mount`, `walk` and the reading calls

The statics of `kernel/fat.c` are one record `Vol`, with the drive beside them;
`sec` is the one sector buffer every helper shares, so a read leaves its sector
there for whoever looks next.

`walk`, `lookup`, `dir_slot` and `fat_list` are four copies of one triple loop
(clusters of a chain, sectors of a cluster, sixteen entries of a sector).
`scanDir` is that loop with the body as a parameter; the body says `.ok` to go
on and `.error r` to leave the function with `r`. The loops that follow a chain
need not end on a damaged FAT, so they take the number of rounds allowed, and
`none` means that it did not suffice.

Sector numbers are natural numbers: `p->lba` has 32 bits, so the 64-bit sums of
the source do not wrap. Where the source computes in 32 bits the model says so.
-/

namespace InaneOS.Fat

open InaneOS.Lib

def eoc : Nat := 0x0FFFFFF8

/-- The statics `fat_mount` takes from the boot sector. -/
structure Geo where
  fatStart : Nat
  dataStart : Nat
  secPerClus : Nat
  numFats : Nat
  fatSz : Nat
  rootClus : Nat

/-- The statics of `kernel/fat.c` and the drive. -/
structure Vol extends Geo where
  disk : Disk
  sec : Sector
  cwdClus : Nat
  cwdPath : Str
  isMounted : Bool
  allocHint : Nat

/-- `ide_read(lba, sec)`; `none` is a failure, which leaves `sec` alone. -/
def ideRead (lba : Nat) (f : Vol) : Option Vol :=
  if f.disk.drive.reads lba then some { f with sec := f.disk.data lba } else none

/-- `ide_write(lba, buf) == 0` and the state after the call. -/
def ideWrite (lba : Nat) (buf : Sector) (f : Vol) : Bool × Vol :=
  (f.disk.drive.writes lba, { f with disk := f.disk.put (lba, buf) })

/-- `c - 2` is computed in 32 bits, as `2 ^ 32 - 2 + c`. -/
def clusLba (c : Nat) (g : Geo) : Nat :=
  g.dataStart + (2 ^ 32 - 2 + c) % 2 ^ 32 * g.secPerClus

def fatNext (c : Nat) (f : Vol) : Nat × Vol :=
  let off := c * 4
  match ideRead (f.fatStart + off / 512) f with
  | none => (eoc, f)
  | some f => (rd32 f.sec (off % 512) &&& 0x0FFFFFFF, f)

/-! ## Scanning a directory -/

section Scan

variable {α σ : Type}

/-- The sixteen entries of the sector in `sec`: `body` gets what was gathered so
far, the sector's number, the entry's offset and the sector. -/
def scanSec (body : σ → Nat → Nat → Sector → Except α σ) (l : Nat) (s : Sector) (a : σ) :
    Except α σ :=
  (List.range 16).foldlM (fun a i => body a l (i * 32) s) a

/-- `n` sectors from sector `l` on; a sector that cannot be read ends the scan
with `fail`. -/
def scanClus (fail : α) (body : σ → Nat → Nat → Sector → Except α σ) :
    Nat → Nat → σ → Vol → Except α σ × Vol
  | 0, _, a, f => (.ok a, f)
  | n + 1, l, a, f =>
    match ideRead l f with
    | none => (.error fail, f)
    | some f =>
      match scanSec body l f.sec a with
      | .error r => (.error r, f)
      | .ok a => scanClus fail body n (l + 1) a f

/-- `for (c = dirclus; c < EOC; c = fat_next(c))`; at the end of the chain, what
was gathered and the last cluster visited. -/
def scanDir (fail : α) (body : σ → Nat → Nat → Sector → Except α σ) :
    Nat → Nat → Nat → σ → Vol → Option (Except α (σ × Nat) × Vol)
  | 0, _, _, _, _ => none
  | fuel + 1, c, prev, a, f =>
    if c < eoc then
      match scanClus fail body f.secPerClus (clusLba c f.toGeo) a f with
      | (.error r, f) => some (.error r, f)
      | (.ok a, f) =>
        let (c', f) := fatNext c f
        scanDir fail body fuel c' c a f
    else some (.ok (a, prev), f)

end Scan

/-! ## Walking a path -/

/-- What `walk` hands back through its pointers. -/
structure Hit where
  clus : Nat
  isdir : Bool
  size : Nat
deriving DecidableEq, Repr

/-- The body of `walk`'s entry loop for component `comp`, with `p` what follows
it in the path and `size` the size found so far. -/
def walkBody (comp p : Str) (size : Nat) (_ : Unit) (_ o : Nat) (s : Sector) :
    Except (Option Hit) Unit :=
  let e := entryAt s o
  if e 0 = 0x00 then .error none
  else
    match entryName e with
    | none => .ok ()
    | some nm =>
      if !nameMatch nm comp then .ok ()
      else if entIsDir e then
        if goesOn p then .error none else .error (some ⟨entClus e, true, size⟩)
      else
        if goesOn p then .error none else .error (some ⟨entClus e, false, entSize e⟩)

/-- The component loop of `walk`. -/
def walkLoop (fuel : Nat) : Nat → Str → Hit → Vol → Option (Option Hit × Vol)
  | 0, _, h, f => some (some h, f)
  | k + 1, path, h, f =>
    let p := skipSlash path
    if p = [] then some (some h, f)
    else
      let m := compLen 12 p
      if m = 0 ∨ goesOn (p.drop m) then some (none, f)
      else
        match scanDir none (walkBody (p.take m) (p.drop m) h.size) fuel h.clus 0 () f with
        | none => none
        | some (.ok _, f) => some (none, f)
        | some (.error none, f) => some (none, f)
        | some (.error (some h), f) =>
          if !h.isdir ∧ p.drop m ≠ [] then some (none, f)
          else walkLoop fuel k (p.drop m) h f

/-- `walk(abs, &clus, &isdir, &size)`, where `*isdir` and `*size` hold `isdir`
and `size` before the call; `none` inside is `-1`. -/
def walk (fuel : Nat) (abs : Str) (isdir : Bool) (size : Nat) (f : Vol) :
    Option (Option Hit × Vol) :=
  if abs = [] ∨ nameSame abs [slash] then some (some ⟨f.rootClus, true, size⟩, f)
  else walkLoop fuel abs.length abs ⟨f.rootClus, isdir, size⟩ f

/-! ## Mounting -/

/-- `fat_mount(part_lba) == 0` and the state after the call. The fields
`sec_per_clus`, `fat_sz` and `root_clus` are stored before they are checked. -/
def fatMount (partLba : Nat) (f : Vol) : Bool × Vol :=
  match ideRead partLba f with
  | none => (false, f)
  | some f =>
    if f.sec 510 ≠ 0x55 ∨ f.sec 511 ≠ 0xAA then (false, f)
    else
      let bps := rd16 f.sec 11
      let reserved := rd16 f.sec 14
      let fats := (f.sec 16).toNat
      let f := { f with
        secPerClus := (f.sec 13).toNat
        fatSz := rd32 f.sec 36
        rootClus := rd32 f.sec 44 }
      if bps ≠ 512 ∨ f.secPerClus = 0 ∨ fats = 0 ∨ f.fatSz = 0 ∨ f.rootClus < 2 then (false, f)
      else
        (true, { f with
          numFats := fats
          fatStart := partLba + reserved
          dataStart := partLba + reserved + fats * f.fatSz
          cwdClus := f.rootClus
          cwdPath := [slash]
          isMounted := true })

def fatUnmount (f : Vol) : Vol := { f with isMounted := false }

def fatMounted (f : Vol) : Bool := f.isMounted

/-! ## Current directory, listing, reading -/

/-- `fat_chdir(path) == 0` -/
def fatChdir (fuel : Nat) (path : Str) (f : Vol) : Option (Bool × Vol) :=
  match abspath f.cwdPath (if path = [] then [slash] else path) with
  | none => some (false, f)
  | some abs =>
    match walk fuel abs false 0 f with
    | none => none
    | some (none, f) => some (false, f)
    | some (some h, f) =>
      if !h.isdir then some (false, f)
      else some (true, { f with cwdClus := h.clus, cwdPath := abs })

/-- `fat_getcwd(out, cap)`: the bytes stored, NUL included, or `none` for `-1`. -/
def fatGetcwd (cap : Nat) (f : Vol) : Option Str :=
  if f.cwdPath.length + 1 > cap then none else some (f.cwdPath ++ [0])

/-- The body of `fat_list`'s entry loop; `.error (some out)` is a return of
`pos` with `out` written. -/
def listBody (cap : Nat) (out : Str) (_ o : Nat) (s : Sector) : Except (Option Str) Str :=
  let e := entryAt s o
  if e 0 = 0x00 then .error (some out)
  else
    match entryName e with
    | none => .ok out
    | some nm =>
      if out.length + nm.length + 2 > cap then .error (some out)
      else .ok (out ++ nm ++ (if entIsDir e then [slash] else []) ++ [10])

/-- `fat_list(path, out, cap)`: the bytes written, their number being the return
value, or `none` for `-1`. -/
def fatList (fuel : Nat) (path : Str) (cap : Nat) (f : Vol) : Option (Option Str × Vol) :=
  let scan (c : Nat) (f : Vol) : Option (Option Str × Vol) :=
    match scanDir none (listBody cap) fuel c 0 [] f with
    | none => none
    | some (.error r, f) => some (r, f)
    | some (.ok (out, _), f) => some (some out, f)
  match abspath f.cwdPath path with
  | none => some (none, f)
  | some abs =>
    if path = [] then scan f.cwdClus f
    else
      match walk fuel abs false 0 f with
      | none => none
      | some (none, f) => some (none, f)
      | some (some h, f) => if !h.isdir then some (none, f) else scan h.clus f

/-- The sector loop of `fat_read`: `n` sectors from `l` on while there is room;
`false` is a sector that could not be read. -/
def readClus (cap : Nat) : Nat → Nat → Str → Vol → Bool × Str × Vol
  | 0, _, out, f => (true, out, f)
  | n + 1, l, out, f =>
    if out.length < cap then
      match ideRead l f with
      | none => (false, out, f)
      | some f =>
        let k := if out.length + 512 > cap then cap - out.length else 512
        readClus cap n (l + 1) (out ++ (List.range k).map f.sec) f
    else (true, out, f)

/-- The chain loop of `fat_read`. -/
def readChain (cap : Nat) : Nat → Nat → Str → Vol → Option (Bool × Str × Vol)
  | 0, _, _, _ => none
  | fuel + 1, cl, out, f =>
    if out.length < cap then
      if eoc ≤ cl then some (true, out, f)
      else
        match readClus cap f.secPerClus (clusLba cl f.toGeo) out f with
        | (false, out, f) => some (false, out, f)
        | (true, out, f) =>
          let (cl', f) := fatNext cl f
          readChain cap fuel cl' out f
    else some (true, out, f)

/-- `fat_read(path, out, cap)`: the return value (`none` for `-1`, else the
number of bytes) and the bytes stored in `out`. -/
def fatRead (fuel : Nat) (path : Str) (cap : Nat) (f : Vol) :
    Option ((Option Nat × Str) × Vol) :=
  match abspath f.cwdPath path with
  | none => some ((none, []), f)
  | some abs =>
    match walk fuel abs true 0 f with
    | none => none
    | some (none, f) => some ((none, []), f)
    | some (some h, f) =>
      if h.isdir then some ((none, []), f)
      else
        match readChain (if h.size < cap then h.size else cap) fuel h.clus [] f with
        | none => none
        | some (false, out, f) => some ((none, out), f)
        | some (true, out, f) => some ((some out.length, out), f)

end InaneOS.Fat
