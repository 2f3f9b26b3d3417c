import InaneOS.Fat.Volume

/-!
# Writing: `fat_set`, `alloc_clus`, `free_chain`, `dir_slot` and `fat_write`

The second half of `kernel/fat.c`. `fat_write` first builds the new chain in
free clusters (`writeChain`), then stores the directory entry, in place when the
name exists and in a free slot otherwise (`dirSlot`, which may grow the
directory), and only then releases the old chain. `storeFile` is that second
part, from the found entry on; `fatWrite` resolves the path before it.

A `false` (or an inner `none`) is the source's `-1`. `free_chain` and the scans
follow chains, so they carry the number of rounds allowed, as in `Volume`.
-/

namespace InaneOS.Fat

open InaneOS.Lib

/-! ## The allocation table -/

/-- The loop of `fat_set` over the copies, `n` of them from copy `k` on. -/
def fatSetLoop (c v : Nat) : Nat → Nat → Vol → Bool × Vol
  | 0, _, f => (true, f)
  | n + 1, k, f =>
    let off := c * 4
    let lba := f.fatStart + k * f.fatSz + off / 512
    match ideRead lba f with
    | none => (false, f)
    | some f =>
      let f := { f with sec := wr32 f.sec (off % 512) v }
      match ideWrite lba f.sec f with
      | (false, f) => (false, f)
      | (true, f) => fatSetLoop c v n (k + 1) f

/-- `fat_set(c, v) == 0`: the entry on all copies. -/
def fatSet (c v : Nat) (f : Vol) : Bool × Vol := fatSetLoop c v f.numFats 0 f

/-- `fat_sz * 128`, in 32 bits. -/
def fatMax (f : Vol) : Nat := f.fatSz * 128 % 2 ^ 32

/-- The search loop of `alloc_clus`, `n` rounds from round `i` on. -/
def allocLoop (max : Nat) : Nat → Nat → Vol → Nat × Vol
  | 0, _, f => (0, f)
  | n + 1, i, f =>
    let c := 2 + (f.allocHint + i) % 2 ^ 32 % (if max - 2 > 0 then max - 2 else 1)
    if c ≥ max then allocLoop max n (i + 1) f
    else
      let off := c * 4
      match ideRead (f.fatStart + off / 512) f with
      | none => (0, f)
      | some f =>
        if rd32 f.sec (off % 512) = 0 then
          match fatSet c 0x0FFFFFFF f with
          | (false, f) => (0, f)
          | (true, f) => (c, { f with allocHint := c })
        else allocLoop max n (i + 1) f

/-- `alloc_clus()`; 0 is a failure. -/
def allocClus (f : Vol) : Nat × Vol := allocLoop (fatMax f) (fatMax f) 0 f

/-- `free_chain(c)`. The link is read in place the way `fat_next` reads it, and
the result of `fat_set` is ignored. -/
def freeChain : Nat → Nat → Vol → Option Vol
  | 0, _, _ => none
  | fuel + 1, c, f =>
    if 2 ≤ c ∧ c < eoc then
      let (nx, f) := fatNext c f
      freeChain fuel nx (fatSet c 0 f).2
    else some f

/-! ## Directory entries -/

/-- What `lookup` hands back through its pointers. -/
structure Found where
  lba : Nat
  off : Nat
  isdir : Bool
  clus : Nat
  size : Nat

def lookupBody (name83 : Str) (_ : Unit) (l o : Nat) (s : Sector) : Except (Option Found) Unit :=
  let e := entryAt s o
  if e 0 = 0x00 then .error none
  else if e 0 = 0xE5 ∨ e 11 &&& attrLfn = attrLfn ∨ e 11 &&& attrVol ≠ 0 then .ok ()
  else if !entryMatch83 e name83 then .ok ()
  else .error (some ⟨l, o, entIsDir e, entClus e, entSize e⟩)

/-- `lookup(dirclus, name83, ...)`; an inner `none` is `-1`. -/
def lookup (fuel dirclus : Nat) (name83 : Str) (f : Vol) : Option (Option Found × Vol) :=
  match scanDir none (lookupBody name83) fuel dirclus 0 () f with
  | none => none
  | some (.error r, f) => some (r, f)
  | some (.ok _, f) => some (none, f)

def slotBody (_ : Unit) (l o : Nat) (s : Sector) : Except (Option (Nat × Nat)) Unit :=
  if s o = 0x00 ∨ s o = 0xE5 then .error (some (l, o)) else .ok ()

/-- `ide_write(clus_lba(nc) + s, zero)` for every sector of the cluster. -/
def zeroClus : Nat → Nat → Vol → Bool × Vol
  | 0, _, f => (true, f)
  | n + 1, l, f =>
    match ideWrite l (fun _ => 0) f with
    | (false, f) => (false, f)
    | (true, f) => zeroClus n (l + 1) f

/-- The part of `dir_slot` that makes the directory one cluster longer. -/
def growDir (prev : Nat) (f : Vol) : Option (Nat × Nat) × Vol :=
  match allocClus f with
  | (nc, f) =>
    if nc = 0 then (none, f)
    else
      match zeroClus f.secPerClus (clusLba nc f.toGeo) f with
      | (false, f) => (none, f)
      | (true, f) =>
        match fatSet prev nc f with
        | (false, f) => (none, f)
        | (true, f) =>
          match ideRead (clusLba nc f.toGeo) f with
          | none => (none, f)
          | some f => (some (clusLba nc f.toGeo, 0), f)

/-- `dir_slot(dirclus, &lba, &off)`; an inner `none` is `-1`. -/
def dirSlot (fuel dirclus : Nat) (f : Vol) : Option (Option (Nat × Nat) × Vol) :=
  match scanDir none slotBody fuel dirclus 0 () f with
  | none => none
  | some (.error r, f) => some (r, f)
  | some (.ok (_, prev), f) => if prev = 0 then some (none, f) else some (growDir prev f)

/-! ## `fat_write` -/

/-- The next 512 bytes of the data, zero-filled. -/
def fillSec (left : Str) : Sector := fun i => if i < 512 then left.getD i 0 else 0

/-- The sector loop of `fat_write`: `n` sectors from `l` on while data is left. -/
def writeClus : Nat → Nat → Str → Vol → Bool × Str × Vol
  | 0, _, left, f => (true, left, f)
  | n + 1, l, left, f =>
    if left = [] then (true, left, f)
    else
      let f := { f with sec := fillSec left }
      match ideWrite l f.sec f with
      | (false, f) => (false, left.drop 512, f)
      | (true, f) => writeClus n (l + 1) (left.drop 512) f

/-- `free_chain(newclus); return -1` -/
def giveUp (fuel newclus : Nat) (f : Vol) : Option (Option Nat × Vol) :=
  (freeChain fuel newclus f).map fun f => (none, f)

/-- The allocation loop of `fat_write`: the first cluster of the new chain, or
`none` inside when the function returns `-1`. `fuel` bounds `free_chain`. -/
def writeChain (fuel : Nat) : Nat → Str → Nat → Nat → Vol → Option (Option Nat × Vol)
  | 0, _, _, _, _ => none
  | k + 1, left, newclus, tail, f =>
    if left = [] then some (some newclus, f)
    else
      match allocClus f with
      | (c, f) =>
        if c = 0 then giveUp fuel newclus f
        else
          match if newclus = 0 then (true, f) else fatSet tail c f with
          | (false, f) => giveUp fuel newclus f
          | (true, f) =>
            let newclus := if newclus = 0 then c else newclus
            match writeClus f.secPerClus (clusLba c f.toGeo) left f with
            | (false, _, f) => giveUp fuel newclus f
            | (true, left, f) => writeChain fuel k left newclus c f

/-- `fill_entry`, the write of the entry's sector, and the release of the old
chain when the name was `found`; `sec` holds the sector. -/
def switchEntry (fuel : Nat) (found : Option Found) (lba off : Nat) (name83 : Str)
    (newclus len : Nat) (f : Vol) : Option (Bool × Vol) :=
  let f := { f with sec := fillEntry f.sec off name83 0x20 newclus (len % 2 ^ 32) }
  match ideWrite lba f.sec f with
  | (false, f) => (freeChain fuel newclus f).map fun f => (false, f)
  | (true, f) =>
    match found with
    | none => some (true, f)
    | some fd =>
      if fd.clus ≥ 2 then (freeChain fuel fd.clus f).map fun f => (true, f) else some (true, f)

/-- `fat_write` from the result of `lookup` on. -/
def storeFile (fuel pclus : Nat) (name83 : Str) (found : Option Found) (buf : Str) (f : Vol) :
    Option (Bool × Vol) :=
  match writeChain fuel fuel buf 0 0 f with
  | none => none
  | some (none, f) => some (false, f)
  | some (some newclus, f) =>
    match found with
    | some fd =>
      match ideRead fd.lba f with
      | none => (freeChain fuel newclus f).map fun f => (false, f)
      | some f => switchEntry fuel found fd.lba fd.off name83 newclus buf.length f
    | none =>
      match dirSlot fuel pclus f with
      | none => none
      | some (none, f) => (freeChain fuel newclus f).map fun f => (false, f)
      | some (some (lba, off), f) => switchEntry fuel found lba off name83 newclus buf.length f

/-- `for (i = 0; abs[i]; i++) if (abs[i] == '/') last = i;` -/
def lastSlash : Str → Nat → Option Nat → Option Nat
  | [], _, last => last
  | c :: p, i, last => lastSlash p (i + 1) (if c = slash then some i else last)

/-- `fat_write(path, buf, len) == 0` -/
def fatWrite (fuel : Nat) (path buf : Str) (f : Vol) : Option (Bool × Vol) :=
  match abspath f.cwdPath path with
  | none => some (false, f)
  | some abs =>
    match lastSlash abs 0 none with
    | none => some (false, f)
    | some last =>
      let leaf := (abs.drop (last + 1)).take 12
      let par := abs.take (min (last + 1) 255)
      if abs.drop (last + 1 + leaf.length) ≠ [] then some (false, f)
      else
        match walk fuel (if par = [] then [slash] else par) false 0 f with
        | none => none
        | some (none, f) => some (false, f)
        | some (some h, f) =>
          if !h.isdir then some (false, f)
          else
            match to83 leaf with
            | none => some (false, f)
            | some name83 =>
              match lookup fuel h.clus name83 f with
              | none => none
              | some (none, f) => storeFile fuel h.clus name83 none buf f
              | some (some fd, f) =>
                if fd.isdir then some (false, f)
                else storeFile fuel h.clus name83 (some fd) buf f

end InaneOS.Fat
