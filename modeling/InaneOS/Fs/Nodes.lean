import InaneOS.Fat.Write

/-!
# The file server: `kernel/fs.c`

A table of 64 nodes, each with the index of its parent, and a path scanner that
two callers use in different ways: `resolve` follows a whole path, `split_parent`
resolves what stands before the last slash and keeps the rest as the leaf. While
a partition is mounted the calls go to the FAT driver instead; the statics of
`fat.c` and the partition table of `part.c` are therefore part of the state.

A result code is the source's `int`. Calls with an output buffer also return the
bytes they stored in it, from its start on; the rest of the buffer is not touched.
A call that goes to the FAT driver may not return on a damaged volume, so it takes
the number of rounds allowed there (`none`: they did not suffice).
-/

namespace InaneOS.Fs

open InaneOS.Fat

def fsMax : Nat := 64
def nameMax : Nat := 32
def fileMax : Nat := 4096

def fsOk : Int := 0
def fsBadpath : Int := -1
def fsExists : Int := -2
def fsFull : Int := -3
def fsUsage : Int := -4
def fsBadname : Int := -5
def fsRo : Int := -6

structure Node where
  name : Str
  parent : Int
  isDir : Bool
  used : Bool
  mode : Nat
  data : Nat → UInt8
  datalen : Nat

/-- `part_t` of `part.h`. -/
structure Part where
  type : UInt8
  lba : Nat
  sectors : Nat

/-- The statics of `fs.c`, `fat.c` and `part.c`; `parts` holds the `nparts` entries found. -/
structure FS where
  nodes : Nat → Node
  cwd : Nat
  mounted : Bool
  mountedIdx : Int
  fat : Vol
  parts : List Part

def FS.setNode (s : FS) (k : Nat) (n : Node) : FS :=
  { s with nodes := fun i => if i = k then n else s.nodes i }

/-- The statics before `fs_init`: all zero, no partition found. -/
def bareFS : FS where
  nodes := fun _ => ⟨[], 0, false, false, 0, fun _ => 0, 0⟩
  cwd := 0
  mounted := false
  mountedIdx := -1
  fat := ⟨⟨0, 0, 0, 0, 0, 0⟩, ⟨Drive.ofSize 0, fun _ _ => 0, []⟩, fun _ => 0, 0, [], false, 2⟩
  parts := []

/-! ## Partitions -/

/-- `part_get(idx)` -/
def partGet (idx : Int) (s : FS) : Option Part :=
  if idx < 0 ∨ idx ≥ s.parts.length then none else s.parts[idx.toNat]?

def fsMountPart (idx : Int) (s : FS) : Int × FS :=
  match partGet idx s with
  | none => (fsBadpath, s)
  | some p =>
    match fatMount p.lba s.fat with
    | (false, f) => (fsBadpath, { s with fat := f })
    | (true, f) => (fsOk, { s with fat := f, mounted := true, mountedIdx := idx })

def fsUnmount (s : FS) : FS :=
  { s with mounted := false, mountedIdx := -1, fat := fatUnmount s.fat }

/-! ## Paths -/

/-- `same_condition(a, b)`: the loop of `name_same` in `fat.c`. -/
def sameCondition (a b : Str) : Bool := nameSame a b

def findKid (dir : Nat) (name : Str) (s : FS) : Option Nat :=
  (List.range fsMax).find? fun i =>
    (s.nodes i).used && decide ((s.nodes i).parent = dir) && sameCondition (s.nodes i).name name

/-- `next_part(p, out)`: what is stored in `out`; its length is the result. -/
def nextPart (p : Str) : Str :=
  (skipSlash p).take (compLen (nameMax - 1) (skipSlash p))

/-- The loop of `resolve`. Each round takes at least one byte of the path, so its
length bounds the rounds. -/
def resolveLoop (s : FS) : Nat → Str → Nat → Option Nat
  | 0, _, cur => some cur
  | k + 1, path, cur =>
    let p := skipSlash path
    if p = [] then some cur
    else
      let part := nextPart p
      let p := skipSlash (p.drop part.length)
      if sameCondition part [dot] then resolveLoop s k p cur
      else if sameCondition part [dot, dot] then
        resolveLoop s k p (if (s.nodes cur).parent ≥ 0 then (s.nodes cur).parent.toNat else cur)
      else
        match findKid cur part s with
        | none => none
        | some j => if p ≠ [] ∧ !(s.nodes j).isDir then none else resolveLoop s k p j

/-- `resolve(path, &out)`; `none` is `-1`. -/
def resolve (path : Str) (s : FS) : Option Nat :=
  let cur := if path.head? = some slash then 0 else s.cwd
  if path = [] ∨ sameCondition path [dot] then some cur
  else resolveLoop s path.length path cur

def resolveDir (path : Str) (s : FS) : Option Nat :=
  match resolve path s with
  | none => none
  | some d => if !(s.nodes d).isDir then none else some d

def freeSlot (s : FS) : Option Nat := (List.range fsMax).find? fun i => !(s.nodes i).used

/-- `split_parent(arg, &pdir, leaf)`; `none` is `-1`. The parent's path goes through a
buffer of 128 bytes. -/
def splitParent (arg : Str) (s : FS) : Option (Nat × Str) :=
  match lastSlash arg 0 none with
  | some last =>
    let pbuf := arg.take (min last 127)
    match resolveDir (if pbuf = [] then [slash] else pbuf) s with
    | none => none
    | some pdir => some (pdir, nextPart (arg.drop (last + 1)))
  | none => some (s.cwd, nextPart arg)

/-! ## The calls -/

/-- `fs_init()`; what was in a node besides `used` stays there, except at the root. -/
def fsInit (s : FS) : FS :=
  { s with
    nodes := fun i =>
      if i = 0 then
        { s.nodes 0 with name := [], parent := -1, isDir := true, used := true, mode := 0o755 }
      else if i < fsMax then { s.nodes i with used := false }
      else s.nodes i
    cwd := 0 }

/-- `name_cp(d, s)`: what `d` holds afterwards. -/
def nameCp (name : Str) : Str := name.take (nameMax - 1)

/-- `leaf[0] == '\0' || same_condition(leaf, ".") || same_condition(leaf, "..")` -/
def badLeaf (leaf : Str) : Bool :=
  decide (leaf = []) || sameCondition leaf [dot] || sameCondition leaf [dot, dot]

def fsMkdir (arg : Str) (s : FS) : Int × FS :=
  if s.mounted then (fsRo, s)
  else if arg = [] then (fsUsage, s)
  else
    match splitParent arg s with
    | none => (fsBadpath, s)
    | some (pdir, leaf) =>
      if badLeaf leaf then (fsBadname, s)
      else if (findKid pdir leaf s).isSome then (fsExists, s)
      else
        match freeSlot s with
        | none => (fsFull, s)
        | some fr =>
          (fsOk, s.setNode fr
            { s.nodes fr with
              name := nameCp leaf
              parent := pdir
              isDir := true
              used := true
              mode := 0o755
              datalen := 0 })

/-- The bytes and the length of a node after `fs_fwrite` has copied `buf` into it. -/
def Node.store (n : Node) (buf : Str) : Node :=
  { n with
    data := fun i => if i < buf.length then buf.getD i 0 else n.data i
    datalen := buf.length }

def fsFwrite (fuel : Nat) (path buf : Str) (s : FS) : Option (Int × FS) :=
  if s.mounted then
    match fatWrite fuel path buf s.fat with
    | none => none
    | some (ok, f) => some (if ok then 0 else -1, { s with fat := f })
  else some <|
    if path = [] then (fsBadpath, s)
    else if buf.length > fileMax then (fsFull, s)
    else
      match splitParent path s with
      | none => (fsBadpath, s)
      | some (pdir, leaf) =>
        if badLeaf leaf then (fsBadname, s)
        else
          match findKid pdir leaf s with
          | some k =>
            if (s.nodes k).isDir then (fsBadpath, s)
            else (fsOk, s.setNode k ((s.nodes k).store buf))
          | none =>
            match freeSlot s with
            | none => (fsFull, s)
            | some k =>
              let n := { s.nodes k with
                name := nameCp leaf
                parent := pdir
                isDir := false
                used := true
                mode := 0o644 }
              (fsOk, s.setNode k (n.store buf))

/-- `fs_fread_ram(path, out, cap)`: the result and the bytes stored in `out`. -/
def fsFreadRam (path : Str) (cap : Nat) (s : FS) : Int × Str :=
  match resolve path s with
  | none => (-1, [])
  | some idx =>
    if (s.nodes idx).isDir then (-1, [])
    else
      let n := if (s.nodes idx).datalen > cap then cap else (s.nodes idx).datalen
      (n, (List.range n).map (s.nodes idx).data)

def fsChdir (fuel : Nat) (path : Str) (s : FS) : Option (Int × FS) :=
  if s.mounted then
    match fatChdir fuel path s.fat with
    | none => none
    | some (ok, f) => some (if ok then 0 else -1, { s with fat := f })
  else some <|
    if path = [] then (fsOk, { s with cwd := 0 })
    else
      match resolveDir path s with
      | none => (fsBadpath, s)
      | some dir => (fsOk, { s with cwd := dir })

/-- The loop of `fs_listdir` over the indices `is`, with `out` stored so far. -/
def listLoop (s : FS) (dir cap : Nat) : List Nat → Str → Str
  | [], out => out
  | i :: is, out =>
    if !(s.nodes i).used ∨ (s.nodes i).parent ≠ dir then listLoop s dir cap is out
    else if out.length + (s.nodes i).name.length + 2 > cap then out
    else
      listLoop s dir cap is
        (out ++ (s.nodes i).name ++ (if (s.nodes i).isDir then [slash] else []) ++ [10])

/-- `fs_listdir(path, out, cap)`: the result and the bytes stored in `out`. -/
def fsListdir (fuel : Nat) (path : Str) (cap : Nat) (s : FS) : Option ((Int × Str) × FS) :=
  if s.mounted then
    match fatList fuel path cap s.fat with
    | none => none
    | some (none, f) => some ((-1, []), { s with fat := f })
    | some (some out, f) => some ((out.length, out), { s with fat := f })
  else
    let scan (dir : Nat) : Int × Str :=
      let out := listLoop s dir cap (List.range fsMax) []
      (out.length, out)
    if path = [] then some (scan s.cwd, s)
    else
      match resolveDir path s with
      | none => some ((fsBadpath, []), s)
      | some dir => some (scan dir, s)

/-- The loop of `fs_getcwd` up the tree: the indices pushed on `stack`, last one first. -/
def cwdStack (s : FS) : Nat → Nat → List Nat → List Nat
  | 0, _, stack => stack
  | k + 1, cur, stack =>
    if cur ≠ 0 then cwdStack s k (s.nodes cur).parent.toNat (cur :: stack) else stack

/-- The loop of `fs_getcwd` down again; `false` is the return for want of room. -/
def cwdEmit (s : FS) (cap : Nat) : List Nat → Str → Bool × Str
  | [], out => (true, out)
  | i :: is, out =>
    if out.length + (s.nodes i).name.length + 2 > cap then (false, out)
    else cwdEmit s cap is (out ++ slash :: (s.nodes i).name)

/-- `fs_getcwd(out, cap)`: the result and the bytes stored in `out`, the NUL included. -/
def fsGetcwd (cap : Nat) (s : FS) : Int × Str :=
  if s.mounted then
    match fatGetcwd cap s.fat with
    | none => (-1, [])
    | some out => (out.length - 1, out)
  else if cap < 2 then (fsBadpath, [])
  else if s.cwd = 0 then (1, [slash, 0])
  else
    match cwdEmit s cap (cwdStack s fsMax s.cwd []) [] with
    | (false, out) => (fsBadpath, out)
    | (true, out) => (out.length, out ++ [0])

/-! ## Histories -/

/-- The calls a program can make. -/
inductive Call
  | mkdir (arg : Str)
  | fwrite (path buf : Str)
  | chdir (path : Str)
  | listdir (path : Str) (cap : Nat)
  | getcwd (cap : Nat)
  | freadRam (path : Str) (cap : Nat)
  | mountPart (idx : Int)
  | unmount

/-- One call: its result, the bytes it stored, and the state after it. -/
def Call.run (fuel : Nat) : Call → FS → Option ((Int × Str) × FS)
  | mkdir arg, s => some (((fsMkdir arg s).1, []), (fsMkdir arg s).2)
  | fwrite path buf, s => (fsFwrite fuel path buf s).map fun r => ((r.1, []), r.2)
  | chdir path, s => (fsChdir fuel path s).map fun r => ((r.1, []), r.2)
  | listdir path cap, s => fsListdir fuel path cap s
  | getcwd cap, s => some (fsGetcwd cap s, s)
  | freadRam path cap, s => some (fsFreadRam path cap s, s)
  | mountPart idx, s => some (((fsMountPart idx s).1, []), (fsMountPart idx s).2)
  | unmount, s => some ((0, []), fsUnmount s)

/-- A sequence of calls: what each returned, and the state at the end. -/
def runCalls (fuel : Nat) : List Call → FS → Option (List (Int × Str) × FS)
  | [], s => some ([], s)
  | c :: cs, s =>
    match c.run fuel s with
    | none => none
    | some (r, s) =>
      match runCalls fuel cs s with
      | none => none
      | some (rs, s) => some (r :: rs, s)

end InaneOS.Fs
