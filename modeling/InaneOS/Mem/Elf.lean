import InaneOS.Mem.Vmm

/-!
# Loading and entering a program: `kernel/elf.c`, `kernel/exec.c`

The loader reads the image where the boot loader left it in physical memory. The
fields of a header are read once, when the loop comes to it; the C code reads them
through the pointer each time, which is the same as long as the program is not loaded
over its own headers. Sums of header fields wrap at 2^64 as in the source, and so do
the addresses computed from them.
-/

namespace InaneOS.Mem

def userMin : Nat := 0x400000
def userMax : Nat := 0x40000000
def ustackBase : Nat := 0x40000000
def ustackTop : Nat := 0x40002000

/-! ## Headers -/

/-- The fields of `elf64_ehdr` that `elf_load` reads. -/
structure Ehdr where
  magic : Nat
  cls : Nat
  data : Nat
  machine : Nat
  entry : Nat
  phoff : Nat
  phentsize : Nat
  phnum : Nat

/-- The fields of `elf64_phdr` that `elf_load` reads. -/
structure Phdr where
  type : Nat
  flags : Nat
  off : Nat
  vaddr : Nat
  filesz : Nat
  memsz : Nat

/-- `sizeof(elf64_ehdr)` -/
def ehdrSize : Nat := 64
/-- `sizeof(elf64_phdr)` -/
def phdrSize : Nat := 56

def ehdrAt (m : Mach) (img : Nat) : Ehdr where
  magic := readLe m 4 img
  cls := readLe m 1 (img + 4)
  data := readLe m 1 (img + 5)
  machine := readLe m 2 (img + 18)
  entry := readLe m 8 (img + 24)
  phoff := readLe m 8 (img + 32)
  phentsize := readLe m 2 (img + 54)
  phnum := readLe m 2 (img + 56)

def phdrAt (m : Mach) (p : Nat) : Phdr where
  type := readLe m 4 p
  flags := readLe m 4 ((p + 4) % 2 ^ 64)
  off := readLe m 8 ((p + 8) % 2 ^ 64)
  vaddr := readLe m 8 ((p + 16) % 2 ^ 64)
  filesz := readLe m 8 ((p + 32) % 2 ^ 64)
  memsz := readLe m 8 ((p + 40) % 2 ^ 64)

/-- `PT_LOAD` -/
def ptLoad : Nat := 1

/-- `(p->flags & PF_W) ? PTE_W : 0` -/
def Phdr.writeFlag (p : Phdr) : Nat := if p.flags / 2 % 2 = 1 then 2 else 0

/-! ## One segment -/

/-- The loop that gives the segment its pages, `n` of them from `va` on. -/
def mapPages (w : Nat) : Nat → Nat → Mach → Bool × Mach
  | 0, _, m => (true, m)
  | n + 1, va, m =>
    let (f, pmm) := pmmAllocFrame m.pmm
    let m := { m with pmm := pmm }
    if f = 0 then (false, m) else mapPages w n (va + 4096) (vmmMap va f (5 + w) m)

/-- The two loops that fill the segment, `n` bytes from offset `o` on. -/
def putBytes (vaddr : Nat) (src : Nat → Mach → Nat × Mach) : Nat → Nat → Mach → Bool × Mach
  | 0, _, m => (true, m)
  | n + 1, o, m =>
    let phys := vmmPhys ((vaddr + o) % 2 ^ 64) m
    if phys = 0 then (false, m)
    else
      let (b, m) := src o m
      putBytes vaddr src n (o + 1) (storeByte phys b m)

/-- `img[p->off + o]` -/
def imgByte (img off o : Nat) (m : Mach) : Nat × Mach :=
  (byteAt m ((img + off + o) % 2 ^ 64), touch ((img + off + o) % 2 ^ 64) m)

def zeroByte (_ : Nat) (m : Mach) : Nat × Mach := (0, m)

/-- `p->vaddr & ~0xFFFUL` -/
def Phdr.first (p : Phdr) : Nat := p.vaddr / 4096 * 4096
/-- `p->vaddr + p->memsz` -/
def Phdr.fin (p : Phdr) : Nat := (p.vaddr + p.memsz) % 2 ^ 64

/-- How often the loop over the pages runs. -/
def Phdr.pageCount (p : Phdr) : Nat := (p.fin - p.first + 4095) / 4096

/-- The loops over the bytes: those of the file, then zeros. -/
def fillBytes (img : Nat) (p : Phdr) (m : Mach) : Bool × Mach :=
  let (ok, m) := putBytes p.vaddr (imgByte img p.off) p.filesz 0 m
  if ok = false then (false, m)
  else putBytes p.vaddr zeroByte (p.memsz - p.filesz) p.filesz m

/-- The three loops of a segment that passed its checks. -/
def fillSegment (img : Nat) (p : Phdr) (m : Mach) : Bool × Mach :=
  let (ok, m) := mapPages p.writeFlag p.pageCount p.first m
  if ok = false then (false, m) else fillBytes img p m

/-- The header is passed over. -/
def Phdr.skipped (p : Phdr) : Prop := p.type ≠ ptLoad ∨ p.memsz = 0

/-- The header makes `elf_load` give up. -/
def Phdr.refused (len : Nat) (p : Phdr) : Prop :=
  ((p.off + p.filesz) % 2 ^ 64 > len ∨ p.memsz < p.filesz) ∨ (p.vaddr < userMin ∨ p.fin > userMax)

instance : DecidablePred Phdr.skipped := fun _ => inferInstanceAs (Decidable (_ ∨ _))
instance (len : Nat) : DecidablePred (Phdr.refused len) := fun _ =>
  inferInstanceAs (Decidable ((_ ∨ _) ∨ (_ ∨ _)))

def loadSegment (img len : Nat) (p : Phdr) (m : Mach) : Bool × Mach :=
  if p.skipped then (true, m)
  else if p.refused len then (false, m)
  else fillSegment img p m

/-! ## The image -/

/-- The loop over the program headers, `n` rounds from `i` on. -/
def phdrLoop (img len : Nat) (e : Ehdr) : Nat → Nat → Mach → Bool × Mach
  | 0, _, m => (true, m)
  | n + 1, i, m =>
    let a := (img + e.phoff + i * e.phentsize) % 2 ^ 64
    let (ok, m) := loadSegment img len (phdrAt m a) (touchBytes phdrSize a m)
    if ok = false then (false, m) else phdrLoop img len e n (i + 1) m

/-- What `elf_load` asks of the file header. -/
def Ehdr.accepted (len : Nat) (e : Ehdr) : Prop :=
  e.magic = 0x464C457F ∧ e.cls = 2 ∧ e.data = 1 ∧ e.machine = 0x3E ∧
    (e.phnum ≠ 0 → phdrSize ≤ e.phentsize) ∧ (e.phoff + e.phnum * e.phentsize) % 2 ^ 64 ≤ len

instance (len : Nat) : DecidablePred (Ehdr.accepted len) := fun _ =>
  inferInstanceAs (Decidable (_ ∧ _ ∧ _ ∧ _ ∧ _ ∧ _))

/-- `elf_load`: the entry point, or nothing for -1. -/
def elfLoad (img len : Nat) (m : Mach) : Option Nat × Mach :=
  if len < ehdrSize then (none, m)
  else
    let e := ehdrAt m img
    let m := touchBytes ehdrSize img m
    if ¬ e.accepted len then (none, m)
    else
      let (ok, m) := phdrLoop img len e e.phnum 0 m
      if ok = false then (none, m)
      else if e.entry < userMin ∨ e.entry ≥ userMax then (none, m)
      else (some e.entry, m)

/-! ## `enter_program` -/

/-- A registered module: where its image lies, and its name. -/
structure Module where
  start : Nat
  fin : Nat
  name : List Nat

/-- The two stack pages. -/
def mapStack (m : Mach) : Bool × Mach :=
  let (s1, pmm) := pmmAllocFrame m.pmm
  let (s2, pmm) := pmmAllocFrame pmm
  let m := { m with pmm := pmm }
  if s1 = 0 ∨ s2 = 0 then (false, m)
  else (true, vmmMap (ustackBase + 0x1000) s2 7 (vmmMap ustackBase s1 7 m))

/-- The part of `enter_program` up to the stack mapping, for the image at `img`. -/
def loadProgram (img len : Nat) (m : Mach) : Option Nat × Mach :=
  let m := vmmUnmapRange userMin ustackTop m
  let (entry, m) := elfLoad img len m
  match entry with
  | none => (none, m)
  | some entry =>
    let (ok, m) := mapStack m
    if ok = false then (none, m) else (some entry, m)

/-- `*(char *)va = b` through the mapping of `va`; a page that is not mapped faults. -/
def putUser (va b : Nat) (m : Mach) : Mach :=
  if vmmPhys va m = 0 then m else pokeByte (vmmPhys va m) b m

/-- The bytes `bs`, written from `va` on. -/
def putUserBytes : List Nat → Nat → Mach → Mach
  | [], _, m => m
  | b :: bs, va, m => putUserBytes bs (va + 1) (putUser va b m)

/-- The eight bytes of a stack slot. -/
def leBytes (w : Nat) : List Nat := (List.range 8).map fun k => w / 256 ^ k % 256

/-- `enter_program` behind the stack mapping: the strings and `argv`; the stack pointer. -/
def pushArgs (name : List Nat) (arg : List Nat) (m : Mach) : Nat × Mach :=
  let sp := ustackTop - (name.length + 8) / 8 * 8
  let namePtr := sp
  let m := putUserBytes (name ++ [0]) sp m
  let (argc, sp, argPtr, m) :=
    if arg = [] then (1, sp, 0, m)
    else
      let sp := sp - (arg.length + 8) / 8 * 8
      (2, sp, sp, putUserBytes (arg ++ [0]) sp m)
  let sp := (sp - (argc + 2) * 8) / 16 * 16
  let m := putUserBytes (leBytes argc) sp m
  let m := putUserBytes (leBytes namePtr) (sp + 8) m
  let m := putUserBytes (leBytes argPtr) (sp + 16) m
  let m := if argc < 2 then putUserBytes (leBytes 0) (sp + 16) m else m
  (sp, putUserBytes (leBytes 0) (sp + 8 * (1 + argc)) m)

/-- `enter_program(idx, arg)`, with `[]` for no argument: where the program is entered, with
which stack pointer, or nothing for -1. -/
def enterProgram (mods : List Module) (idx : Int) (arg : List Nat) (m : Mach) :
    Option (Nat × Nat) × Mach :=
  if idx < 0 then (none, m)
  else
    match mods[idx.toNat]? with
    | none => (none, m)
    | some mod =>
      let (entry, m) := loadProgram mod.start (mod.fin - mod.start) m
      match entry with
      | none => (none, m)
      | some entry =>
        let (sp, m) := pushArgs mod.name arg m
        (some (entry, sp), m)

end InaneOS.Mem
