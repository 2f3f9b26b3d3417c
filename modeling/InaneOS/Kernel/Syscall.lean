import InaneOS.Drivers.Keyboard
import InaneOS.Drivers.Vga
import InaneOS.Fat.ListOut
import InaneOS.Kernel.Partlist
import InaneOS.Mem.Count
import InaneOS.Mem.Elf
import InaneOS.User.Moon

/-!
# System calls: `kernel/syscall.c`

`syscall_dispatcher` works on the registers the entry stub saved, on memory through the
pointers in them, and on the statics of the kernel, which are one record here. A program's
pointers are taken to lead to its own memory: the kernel's data is not part of `Memory`.
Addresses have 64 bits and wrap; a byte of a buffer is found by its offset from the start.

A call need not come back: `getchar` waits for a key, `enter_program` enters another
program, and the machine may be stopped (`Outcome`). A call of the FAT driver takes the
number of rounds allowed; `none` means that they did not suffice.
-/

namespace InaneOS.Kernel

open InaneOS.Fat (Str)
open InaneOS.Fs
open InaneOS.Drivers
open InaneOS.Mem (Mach Module enterProgram pmmFreeKb)

/-! ## Memory -/

abbrev Memory := BitVec 64 → UInt8

/-- `p[i]` -/
def plus (p : BitVec 64) (i : Nat) : BitVec 64 := p + BitVec.ofNat 64 i

/-- The `i` for which `p[i]` is the byte at `a`. -/
def offset (p a : BitVec 64) : Nat := (a - p).toNat

/-- The `n` bytes at `p`. -/
def bytesAt (mem : Memory) (p : BitVec 64) (n : Nat) : Str :=
  (List.range n).map fun i => mem (plus p i)

/-- The bytes `bs` stored from `p` on. -/
def store (mem : Memory) (p : BitVec 64) (bs : Str) : Memory :=
  fun a => if offset p a < bs.length then bs.getD (offset p a) 0 else mem a

/-- What the `emit` helpers have made of the buffer at `p`. -/
def storeOut (p : BitVec 64) (o : Out) : Memory := fun a => o.mem (offset p a)

/-- `while (n < max && s[n]) n++`: the bytes passed, at most `max`. -/
def scanStr (mem : Memory) : Nat → BitVec 64 → Str
  | 0, _ => []
  | max + 1, s => if mem s = 0 then [] else mem s :: scanStr mem max (plus s 1)

/-- `copy_str(dst, src, cap)`: the string stored in `dst`, or nothing for `E_INVAL`. -/
def copyStr (mem : Memory) (src : BitVec 64) (cap : Nat) : Option Str :=
  if src = 0 ∨ cap = 0 then none
  else
    let s := scanStr mem (cap - 1) src
    if mem (plus src s.length) ≠ 0 then none else some s

/-! ## Programs by name -/

/-- `name_same(a, b)` of `exec.c`. -/
def modNameSame : List Nat → List Nat → Bool
  | [], [] => true
  | a :: as, b :: bs => if a = b then modNameSame as bs else false
  | _, _ => false

/-- The loop of `exec_find` from index `i` on. -/
def findLoop (name : List Nat) : List Module → Nat → Int
  | [], _ => -1
  | m :: ms, i => if modNameSame m.name name then i else findLoop name ms (i + 1)

def execFind (name : List Nat) (mods : List Module) : Int := findLoop name mods 0

/-- The loop of `exec_lsmod`, with `out` stored so far. -/
def lsmodLoop (cap : Nat) : List Module → Str → Str
  | [], out => out
  | m :: ms, out =>
    if out.length + m.name.length + 1 > cap then out
    else lsmodLoop cap ms (out ++ m.name.map UInt8.ofNat ++ [10])

/-- `exec_lsmod(buf, cap)`: the bytes stored, their number being the result. -/
def execLsmod (cap : Nat) (mods : List Module) : Str := lsmodLoop cap mods []

/-! ## The dispatcher -/

/-- `syscall_frame` -/
structure SyscallFrame where
  rax : BitVec 64
  rdi : BitVec 64
  rsi : BitVec 64
  rdx : BitVec 64
  r10 : BitVec 64
  r8 : BitVec 64
  r9 : BitVec 64
  rip : BitVec 64
  rflags : BitVec 64
  rbx : BitVec 64
  rbp : BitVec 64
  r12 : BitVec 64
  r13 : BitVec 64
  r14 : BitVec 64
  r15 : BitVec 64

/-- The statics of the kernel. -/
structure Statics where
  fs : FS
  term : Term
  kbd : Kbd
  mods : List Module
  mach : Mach

/-- How a call ends: it returns with `rax` set, it waits in `getchar`, a program is entered, or
the processor is stopped or reset. -/
inductive Outcome
  | back (rax : BitVec 64) (mem : Memory) (k : Statics)
  | reads (k : Statics)
  | enters (entry sp : Nat) (k : Statics)
  | halts (k : Statics)
  | resets (k : Statics)

def sysIoMax : Nat := 4096
def eNosys : Int := -38

/-- `f->rax = (uint64_t)r` -/
def answer (r : Int) (mem : Memory) (k : Statics) : Outcome := .back (BitVec.ofInt 64 r) mem k

/-- `(int)v` -/
def toC (v : BitVec 64) : Int := (v.setWidth 32).toInt

def sysPuts (s : BitVec 64) (mem : Memory) (k : Statics) : Outcome :=
  if s = 0 then answer eInval mem k
  else
    let bs := scanStr mem sysIoMax s
    if bs.length = sysIoMax then answer eInval mem k
    else answer 0 mem { k with term := termWrite bs k.term }

def sysWrite (s n : BitVec 64) (mem : Memory) (k : Statics) : Outcome :=
  if s = 0 ∨ n.toNat > sysIoMax then answer eInval mem k
  else .back n mem { k with term := termWrite (bytesAt mem s n.toNat) k.term }

/-- `"inaneos beta 0.0.2\n"` -/
def banner : Str :=
  [105, 110, 97, 110, 101, 111, 115, 32, 98, 101, 116, 97, 32, 48, 46, 48, 46, 50, 10]

/-- `"init lost\n"` -/
def initLost : Str := [105, 110, 105, 116, 32, 108, 111, 115, 116, 10]

/-- `"safe to power off\n"` -/
def powerOffText : Str :=
  [115, 97, 102, 101, 32, 116, 111, 32, 112, 111, 119, 101, 114, 32, 111, 102, 102, 10]

/-- `if (enter_program(0, 0) != 0) ...` -/
def enterInit (k : Statics) : Outcome :=
  match enterProgram k.mods 0 [] k.mach with
  | (some (entry, sp), m) => .enters entry sp { k with mach := m }
  | (none, m) => .halts { k with mach := m, term := termPuts initLost k.term }

def sysRun (name arg : BitVec 64) (mem : Memory) (k : Statics) : Outcome :=
  match copyStr mem name 32 with
  | none => answer eInval mem k
  | some nm =>
    match if arg ≠ 0 then copyStr mem arg 128 else some [] with
    | none => answer eInval mem k
    | some ap =>
      let idx := execFind (nm.map UInt8.toNat) k.mods
      if idx < 0 then answer eInval mem k
      else
        match enterProgram k.mods idx (ap.map UInt8.toNat) k.mach with
        | (some (entry, sp), m) => .enters entry sp { k with mach := m }
        | (none, m) => enterInit { k with mach := m }

def sysLsmod (buf cap : BitVec 64) (mem : Memory) (k : Statics) : Outcome :=
  if buf = 0 ∨ cap.toNat > 256 then answer eInval mem k
  else
    let out := execLsmod cap.toNat k.mods
    answer out.length (store mem buf out) k

/-- The bytes from `buf` on, as the `emit` helpers find them. -/
def fromBuf (mem : Memory) (buf : BitVec 64) : Nat → UInt8 := fun i => mem (plus buf i)

/-- `pos == (unsigned long)-1 ? E_INVAL : pos` -/
def endPos (pos : Nat) : Int := if pos = overflow then eInval else pos

/-- The case `SYS_PARTLIST`: the handler of `InaneOS.Kernel.Partlist` on the caller's memory. -/
def sysParts (buf cap : BitVec 64) (mem : Memory) (k : Statics) : Outcome :=
  if buf = 0 ∨ cap.toNat > 512 then answer eInval mem k
  else
    let (pos, out) :=
      partLoop cap.toNat k.fs.mountedIdx 0 k.fs.parts (emitStart (fromBuf mem buf))
    answer (endPos pos) (storeOut buf out) k

def sysMountCase (idx : BitVec 64) (mem : Memory) (k : Statics) : Outcome :=
  let (rax, fs) := User.sysMount idx k.fs
  .back rax mem { k with fs := fs }

/-- A path argument: `copy_str` into `char path[128]`. -/
def pathArg (p : BitVec 64) (mem : Memory) : Option Str := copyStr mem p 128

def sysFread (fuel : Nat) (path buf cap : BitVec 64) (mem : Memory) (k : Statics) :
    Option Outcome :=
  match pathArg path mem with
  | none => some (answer eInval mem k)
  | some p =>
    if buf = 0 ∨ cap.toNat > 8192 then some (answer eInval mem k)
    else if Fat.fatMounted k.fs.fat then
      match Fat.fatRead fuel p cap.toNat k.fs.fat with
      | none => none
      | some ((r, out), f) =>
        some (answer (match r with | none => -1 | some n => n) (store mem buf out)
          { k with fs := { k.fs with fat := f } })
    else
      let (r, out) := fsFreadRam p cap.toNat k.fs
      some (answer r (store mem buf out) k)

def sysFwrite (fuel : Nat) (path buf len : BitVec 64) (mem : Memory) (k : Statics) :
    Option Outcome :=
  match pathArg path mem with
  | none => some (answer eInval mem k)
  | some p =>
    if buf = 0 ∨ len.toNat > fileMax then some (answer eInval mem k)
    else
      match fsFwrite fuel p (bytesAt mem buf len.toNat) k.fs with
      | none => none
      | some (r, fs) => some (answer r mem { k with fs := fs })

def sysChdir (fuel : Nat) (path : BitVec 64) (mem : Memory) (k : Statics) : Option Outcome :=
  match pathArg path mem with
  | none => some (answer eInval mem k)
  | some p =>
    match fsChdir fuel p k.fs with
    | none => none
    | some (r, fs) => some (answer r mem { k with fs := fs })

def sysMkdir (path : BitVec 64) (mem : Memory) (k : Statics) : Outcome :=
  match pathArg path mem with
  | none => answer eInval mem k
  | some p =>
    let (r, fs) := fsMkdir p k.fs
    answer r mem { k with fs := fs }

/-- What `fs_listdir` has stored in its buffer when it returns. -/
def listdirOut (fuel : Nat) (path : Str) (cap : Nat) (s : FS) (out : Str) : Str :=
  if s.mounted then Fat.listOut fuel path cap s.fat else out

def sysListdir (fuel : Nat) (path buf cap : BitVec 64) (mem : Memory) (k : Statics) :
    Option Outcome :=
  match pathArg path mem with
  | none => some (answer eInval mem k)
  | some p =>
    if buf = 0 ∨ cap.toNat > 8192 then some (answer eInval mem k)
    else
      match fsListdir fuel p cap.toNat k.fs with
      | none => none
      | some ((r, out), fs) =>
        some (answer r (store mem buf (listdirOut fuel p cap.toNat k.fs out)) { k with fs := fs })

def sysGetcwd (buf cap : BitVec 64) (mem : Memory) (k : Statics) : Outcome :=
  if buf = 0 ∨ cap.toNat > 512 ∨ cap.toNat < 2 then answer eInval mem k
  else
    let (r, out) := fsGetcwd cap.toNat k.fs
    answer r (store mem buf out) k

/-- `"free: "`, `" KB total: "` and `" KB\n"` around the two figures. -/
def meminfoCalls (k : Statics) : List Emit :=
  [.str [102, 114, 101, 101, 58, 32], .dec (UInt64.ofNat (pmmFreeKb k.mach.pmm)),
    .str [32, 75, 66, 32, 116, 111, 116, 97, 108, 58, 32],
    .dec (UInt64.ofNat (k.mach.pmm.totalFrames * 4)), .str [32, 75, 66, 10]]

def sysMeminfo (buf cap : BitVec 64) (mem : Memory) (k : Statics) : Outcome :=
  if buf = 0 ∨ cap.toNat > 256 ∨ cap.toNat < 32 then answer eInval mem k
  else
    let (pos, out) := emits cap.toNat (meminfoCalls k) (emitStart (fromBuf mem buf))
    answer (endPos pos) (storeOut buf out) k

/-- The numbers of `syscall.h`. -/
inductive SysNo
  | puts | getc | info | reboot | poweroff | exit | write | chdir | mkdir | listdir | getcwd
  | setcolor | meminfo | run | lsmod | partlist | mount | fread | goto | fwrite | clear
  | other
  deriving DecidableEq

/-- The `case` a number selects. -/
def sysNo (rax : BitVec 64) : SysNo :=
  [.puts, .getc, .info, .reboot, .poweroff, .exit, .write, .chdir, .mkdir, .listdir, .getcwd,
    .setcolor, .meminfo, .run, .lsmod, .partlist, .mount, .fread, .goto, .fwrite, .clear].getD
      rax.toNat SysNo.other

def syscallDispatcher (fuel : Nat) (f : SyscallFrame) (mem : Memory) (k : Statics) :
    Option Outcome :=
  match sysNo f.rax with
  | .puts => some (sysPuts f.rdi mem k)
  | .getc => some (.reads k)
  | .info => some (answer 0 mem { k with term := termPuts banner k.term })
  | .reboot => some (.resets k)
  | .poweroff => some (.halts { k with term := termPuts powerOffText k.term })
  | .exit => some (enterInit k)
  | .write => some (sysWrite f.rdi f.rsi mem k)
  | .chdir => sysChdir fuel f.rdi mem k
  | .mkdir => some (sysMkdir f.rdi mem k)
  | .listdir => sysListdir fuel f.rdi f.rsi f.rdx mem k
  | .getcwd => some (sysGetcwd f.rdi f.rsi mem k)
  | .setcolor =>
    some (answer 0 mem
      { k with term := termSetColor (f.rdi.setWidth 32).toNat (f.rsi.setWidth 32).toNat k.term })
  | .meminfo => some (sysMeminfo f.rdi f.rsi mem k)
  | .run => some (sysRun f.rdi f.rsi mem k)
  | .lsmod => some (sysLsmod f.rdi f.rsi mem k)
  | .partlist => some (sysParts f.rdi f.rsi mem k)
  | .mount => some (sysMountCase f.rdi mem k)
  | .fread => sysFread fuel f.rdi f.rsi f.rdx mem k
  | .goto => some (answer 0 mem { k with term := termGoto (toC f.rdi) (toC f.rsi) k.term })
  | .fwrite => sysFwrite fuel f.rdi f.rsi f.rdx mem k
  | .clear => some (answer 0 mem { k with term := termClear k.term })
  | .other => some (answer eNosys mem k)

end InaneOS.Kernel
