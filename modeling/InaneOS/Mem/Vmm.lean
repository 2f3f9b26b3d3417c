import InaneOS.Mem.Pmm

/-!
# Page tables: `arch/x86_64/vmm.c`

Physical memory is a function of a frame number and the index of a 64-bit word in
the frame; the tables lie in it like everything else, and nothing here knows which
frames are tables. Table pointers are 4096-aligned addresses and are kept as frame
numbers, with 0 for the null pointer. A mask that clears or picks low bits is a
division or a remainder.

The kernel runs on the tables it edits: a physical address can be used as a pointer
only while it is mapped to itself. The model reads and writes physical memory
directly and keeps the question apart: `strayed` is set when an address is used that
`vmm_phys` does not map to itself at that moment. `starved` is set when a page
table could not be allocated. Neither is read by the code.
-/

namespace InaneOS.Mem

/-- The machine as far as the memory code sees it. -/
structure Mach where
  mem : Nat → Nat → Nat
  pmm : Pmm
  /-- The frame of the array `pml4`. -/
  pml4 : Nat
  starved : Bool
  strayed : Bool

/-! ## Entries -/

/-- `e & PTE_P` -/
def present (e : Nat) : Prop := e % 2 = 1
/-- `e & PTE_W` -/
def writable (e : Nat) : Prop := e / 2 % 2 = 1
/-- `e & PTE_U` -/
def user (e : Nat) : Prop := e / 4 % 2 = 1
/-- `e & 0x80` -/
def large (e : Nat) : Prop := e / 128 % 2 = 1

instance : DecidablePred present := fun e => inferInstanceAs (Decidable (e % 2 = 1))
instance : DecidablePred writable := fun e => inferInstanceAs (Decidable (e / 2 % 2 = 1))
instance : DecidablePred user := fun e => inferInstanceAs (Decidable (e / 4 % 2 = 1))
instance : DecidablePred large := fun e => inferInstanceAs (Decidable (e / 128 % 2 = 1))

def ptEntries : Nat := 512

/-- `(virt >> (12 + 9 * level)) & 0x1FF` -/
def tableIdx (level virt : Nat) : Nat := virt / 2 ^ (12 + 9 * level) % 512

/-- `nt | PTE_P | PTE_W | PTE_U` for the table in frame `nt`. -/
def openEntry (nt : Nat) : Nat := nt * 4096 + 7

/-- `pt[i]` of a split 2 MB page with the directory entry `e`: the base, the page and the
flags without 0x80. -/
def splitEntry (e i : Nat) : Nat :=
  e / 2 ^ 21 * 2 ^ 21 + i * 4096 + (e % 128 + e % 4096 / 256 * 256)

/-- `(phys & ~0xFFFUL) | (flags & 0xFFF) | PTE_P` -/
def leafEntry (phys flags : Nat) : Nat := phys / 4096 * 4096 + flags % 4096 / 2 * 2 + 1

/-! ## Looking an address up -/

/-- The loop of `vmm_phys` from the table `t` at `level` on, and what follows it. -/
def physFrom (mem : Nat → Nat → Nat) (virt : Nat) : Nat → Nat → Nat
  | 0, t =>
    let e := mem t (tableIdx 0 virt)
    if present e then e / 4096 * 4096 + virt % 4096 else 0
  | level + 1, t =>
    let e := mem t (tableIdx (level + 1) virt)
    if ¬ present e then 0
    else if level = 0 ∧ large e then e / 2 ^ 21 * 2 ^ 21 + virt % 2 ^ 21
    else physFrom mem virt level (e / 4096)

def vmmPhys (virt : Nat) (m : Mach) : Nat := physFrom m.mem virt 3 m.pml4

/-! ## Memory accesses -/

/-- The address `p` is used as a pointer. -/
def touch (p : Nat) (m : Mach) : Mach :=
  { m with strayed := m.strayed || decide (vmmPhys p m ≠ p) }

/-- `t[i] = w` -/
def poke (t i w : Nat) (m : Mach) : Mach :=
  { m with mem := fun f j => if f = t ∧ j = i then w else m.mem f j }

/-- `t[i] = w` through the pointer `t`. -/
def store (t i w : Nat) (m : Mach) : Mach := poke t i w (touch (t * 4096 + 8 * i) m)

/-- `for (; i < i0 + n; i++) t[i] = val(i);` -/
def fillLoop (val : Nat → Nat) (t : Nat) : Nat → Nat → Mach → Mach
  | 0, _, m => m
  | n + 1, i, m => fillLoop val t n (i + 1) (store t i (val i) m)

/-! ## Creating tables -/

def tableAlloc (m : Mach) : Nat × Mach :=
  let (p, pmm) := pmmAllocFrame m.pmm
  let m := { m with pmm := pmm }
  if p = 0 then (0, { m with starved := true })
  else (p / 4096, fillLoop (fun _ => 0) (p / 4096) ptEntries 0 m)

/-- The loop of `walk` from the table `t` at `level` on. -/
def walkFrom (virt : Nat) (create : Bool) : Nat → Nat → Mach → Nat × Mach
  | 0, t, m => (t, m)
  | level + 1, t, m =>
    let idx := tableIdx (level + 1) virt
    let m := touch (t * 4096 + 8 * idx) m
    if present (m.mem t idx) then walkFrom virt create level (m.mem t idx / 4096) m
    else if create = false then (0, m)
    else
      let (nt, m) := tableAlloc m
      if nt = 0 then (0, m)
      else
        let m := store t idx (openEntry nt) m
        walkFrom virt create level (m.mem t idx / 4096) m

def walk (virt : Nat) (create : Bool) (m : Mach) : Nat × Mach := walkFrom virt create 3 m.pml4 m

/-- The second half of `split_large`, for a directory entry that is a 2 MB page. -/
def splitTable (pd pdIdx : Nat) (m : Mach) : Int × Mach :=
  let (pt, m) := tableAlloc m
  if pt = 0 then (-1, m)
  else
    -- the directory entry is read once more behind `table_alloc`
    let m := fillLoop (splitEntry (m.mem pd pdIdx)) pt ptEntries 0 m
    (0, store pd pdIdx (openEntry pt) m)

def splitLarge (virt : Nat) (m : Mach) : Int × Mach :=
  let pdptIdx := tableIdx 2 virt
  let pdIdx := tableIdx 1 virt
  let m := touch (m.pml4 * 4096 + 8 * 0) m
  let pdpt := m.mem m.pml4 0 / 4096
  let m := touch (pdpt * 4096 + 8 * pdptIdx) m
  if ¬ present (m.mem pdpt pdptIdx) then (-1, m)
  else
    let pd := m.mem pdpt pdptIdx / 4096
    let m := touch (pd * 4096 + 8 * pdIdx) m
    if ¬ present (m.mem pd pdIdx) ∨ ¬ large (m.mem pd pdIdx) then (0, m)
    else splitTable pd pdIdx m

/-- `vmm_map`; what `split_large` returns is not looked at. -/
def vmmMap (virt phys flags : Nat) (m : Mach) : Mach :=
  let m := (splitLarge virt m).2
  let (pt, m) := walk virt true m
  if pt = 0 then m else store pt (tableIdx 0 virt) (leafEntry phys flags) m

/-! ## Clearing a range -/

/-- One round of `vmm_unmap_range`, from the table `t` at `level` on. -/
def unmapFrom (v : Nat) : Nat → Nat → Mach → Mach
  | 0, t, m =>
    let e := m.mem t (tableIdx 0 v)
    if present e then
      poke t (tableIdx 0 v) 0 { m with pmm := pmmFreeFrame (e / 4096 * 4096) m.pmm }
    else m
  | level + 1, t, m =>
    let e := m.mem t (tableIdx (level + 1) v)
    if ¬ present e ∨ (level = 0 ∧ large e) then m else unmapFrom v level (e / 4096) m

def unmapLoop : Nat → Nat → Mach → Mach
  | 0, _, m => m
  | n + 1, v, m => unmapLoop n (v + 4096) (unmapFrom v 3 m.pml4 m)

def vmmUnmapRange (start fin : Nat) (m : Mach) : Mach :=
  unmapLoop ((fin - start / 4096 * 4096 + 4095) / 4096) (start / 4096 * 4096) m

/-! ## Bytes -/

def byteAt (m : Mach) (p : Nat) : Nat := m.mem (p / 4096) (p % 4096 / 8) / 256 ^ (p % 8) % 256

/-- `*(uint8_t *)p = b` at the physical address `p`. -/
def pokeByte (p b : Nat) (m : Mach) : Mach :=
  let w := m.mem (p / 4096) (p % 4096 / 8)
  poke (p / 4096) (p % 4096 / 8) (w - w / 256 ^ (p % 8) % 256 * 256 ^ (p % 8) + b * 256 ^ (p % 8)) m

def storeByte (p b : Nat) (m : Mach) : Mach := pokeByte p b (touch p m)

/-- The little-endian number in the `n` bytes at `p`. -/
def readLe (m : Mach) : Nat → Nat → Nat
  | 0, _ => 0
  | n + 1, p => byteAt m p + 256 * readLe m n ((p + 1) % 2 ^ 64)

/-- The bytes of a structure of `n` bytes at `p` are read. -/
def touchBytes : Nat → Nat → Mach → Mach
  | 0, _, m => m
  | n + 1, p, m => touchBytes n ((p + 1) % 2 ^ 64) (touch p m)

/-! ## What the accesses leave alone -/

@[simp] theorem touch_mem (p : Nat) (m : Mach) : (touch p m).mem = m.mem := rfl
@[simp] theorem touch_pmm (p : Nat) (m : Mach) : (touch p m).pmm = m.pmm := rfl
@[simp] theorem touch_pml4 (p : Nat) (m : Mach) : (touch p m).pml4 = m.pml4 := rfl
@[simp] theorem touch_starved (p : Nat) (m : Mach) : (touch p m).starved = m.starved := rfl

@[simp] theorem poke_pmm (t i w : Nat) (m : Mach) : (poke t i w m).pmm = m.pmm := rfl
@[simp] theorem poke_pml4 (t i w : Nat) (m : Mach) : (poke t i w m).pml4 = m.pml4 := rfl
@[simp] theorem poke_starved (t i w : Nat) (m : Mach) : (poke t i w m).starved = m.starved := rfl
@[simp] theorem poke_strayed (t i w : Nat) (m : Mach) : (poke t i w m).strayed = m.strayed := rfl

theorem poke_same (t i w : Nat) (m : Mach) : (poke t i w m).mem t i = w :=
  if_pos ⟨rfl, rfl⟩

theorem poke_other {t i f j : Nat} (w : Nat) (m : Mach) (h : ¬ (f = t ∧ j = i)) :
    (poke t i w m).mem f j = m.mem f j :=
  if_neg h

theorem poke_frame {t f : Nat} (i w : Nat) (m : Mach) (h : f ≠ t) :
    (poke t i w m).mem f = m.mem f :=
  funext fun _ => poke_other w m fun hboth => h hboth.1

@[simp] theorem store_pmm (t i w : Nat) (m : Mach) : (store t i w m).pmm = m.pmm := rfl
@[simp] theorem store_pml4 (t i w : Nat) (m : Mach) : (store t i w m).pml4 = m.pml4 := rfl
@[simp] theorem store_starved (t i w : Nat) (m : Mach) : (store t i w m).starved = m.starved := rfl
@[simp] theorem store_mem (t i w : Nat) (m : Mach) : (store t i w m).mem = (poke t i w m).mem := rfl

@[simp] theorem fillLoop_pmm (val : Nat → Nat) (t : Nat) : ∀ (n i : Nat) (m : Mach),
    (fillLoop val t n i m).pmm = m.pmm
  | 0, _, _ => rfl
  | n + 1, i, _ => fillLoop_pmm val t n (i + 1) _

@[simp] theorem fillLoop_pml4 (val : Nat → Nat) (t : Nat) : ∀ (n i : Nat) (m : Mach),
    (fillLoop val t n i m).pml4 = m.pml4
  | 0, _, _ => rfl
  | n + 1, i, _ => fillLoop_pml4 val t n (i + 1) _

@[simp] theorem fillLoop_starved (val : Nat → Nat) (t : Nat) : ∀ (n i : Nat) (m : Mach),
    (fillLoop val t n i m).starved = m.starved
  | 0, _, _ => rfl
  | n + 1, i, _ => fillLoop_starved val t n (i + 1) _

/-- The loop writes one run of words. -/
theorem fillLoop_mem (val : Nat → Nat) (t : Nat) : ∀ (n i : Nat) (m : Mach) (f j : Nat),
    (fillLoop val t n i m).mem f j = if f = t ∧ i ≤ j ∧ j < i + n then val j else m.mem f j
  | 0, i, m, f, j => by
    rw [fillLoop, if_neg (by omega)]
  | n + 1, i, m, f, j => by
    rw [fillLoop, fillLoop_mem val t n (i + 1)]
    by_cases hlater : f = t ∧ i + 1 ≤ j ∧ j < i + 1 + n
    · rw [if_pos hlater, if_pos (by omega)]
    · rw [if_neg hlater]
      by_cases hhere : f = t ∧ j = i
      · rw [hhere.1, hhere.2, if_pos (by omega)]
        exact poke_same _ _ _ _
      · rw [if_neg (by omega)]
        exact poke_other _ _ hhere

theorem fillLoop_frame {f t : Nat} (val : Nat → Nat) (n i : Nat) (m : Mach) (h : f ≠ t) :
    (fillLoop val t n i m).mem f = m.mem f :=
  funext fun j => by rw [fillLoop_mem, if_neg fun hboth => h hboth.1]

@[simp] theorem pokeByte_pmm (p b : Nat) (m : Mach) : (pokeByte p b m).pmm = m.pmm := rfl
@[simp] theorem pokeByte_pml4 (p b : Nat) (m : Mach) : (pokeByte p b m).pml4 = m.pml4 := rfl
@[simp] theorem pokeByte_starved (p b : Nat) (m : Mach) : (pokeByte p b m).starved = m.starved :=
    rfl
@[simp] theorem pokeByte_strayed (p b : Nat) (m : Mach) : (pokeByte p b m).strayed = m.strayed :=
    rfl

theorem pokeByte_frame {p f : Nat} (b : Nat) (m : Mach) (h : f ≠ p / 4096) :
    (pokeByte p b m).mem f = m.mem f :=
  poke_frame _ _ m h

end InaneOS.Mem
