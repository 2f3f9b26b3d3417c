import InaneOS.Lib.Bitmap
import InaneOS.Lib.NextFit

/-!
# The frame allocator: `kernel/pmm.c`

One bit per frame of the first gigabyte, a count of the clear bits and a cursor
for the next search. The count is a 64-bit number that is moved up and down beside
the bitmap; that it never drifts from the bitmap is `PmmInv`.

Each operation has one lemma in terms of the set of used frames (`setUsed_spec`,
`pmmAllocFrame_spec`, `pmmFreeFrame_spec`); `pmm_run` puts them together for whole
histories. The rest of the memory system only uses these lemmas.
-/

namespace InaneOS.Mem

open InaneOS.Lib

def frameSize : Nat := 4096
def pmmMaxPhys : Nat := 0x40000000

/-- The statics of `pmm.c`. -/
structure Pmm where
  bitmap : Nat → BitVec 8
  totalFrames : Nat
  freeFrames : Nat
  cursor : Nat

/-- The frame's bit is set. -/
def Pmm.used (p : Pmm) (f : Nat) : Bool := getBit p.bitmap f

def setUsed (frame : Nat) (p : Pmm) : Pmm :=
  if p.used frame then p
  else
    { p with
      bitmap := setBit p.bitmap frame
      freeFrames := (p.freeFrames + (2 ^ 64 - 1)) % 2 ^ 64 }

/-- `for (f = f0; f < f0 + n; f++) set_used(f);` -/
def setUsedLoop : Nat → Nat → Pmm → Pmm
  | 0, _, p => p
  | n + 1, f, p => setUsedLoop n (f + 1) (setUsed f p)

/-! ## Start-up -/

/-- An entry of the memory map, as far as `pmm_init` reads it. -/
structure MmapEntry where
  addr : Nat
  len : Nat
  type : Nat

def memAvailable : Nat := 1

/-- `bitmap[f / 8] &= ~(1 << (f % 8)); free_frames++;` for `n` frames from `f` on. -/
def releaseLoop : Nat → Nat → Pmm → Pmm
  | 0, _, p => p
  | n + 1, f, p =>
    releaseLoop n (f + 1)
      { p with bitmap := clearBit p.bitmap f, freeFrames := (p.freeFrames + 1) % 2 ^ 64 }

/-- The body of the loop over the memory map. -/
def initEntry (e : MmapEntry) (p : Pmm) : Pmm :=
  if e.type = memAvailable then
    let (s, l) :=
      if e.addr < 0x100000 then
        let cut := 0x100000 - e.addr
        if cut ≥ e.len then (e.addr, 0) else (e.addr + cut, e.len - cut)
      else (e.addr, e.len)
    let l :=
      if (s + l) % 2 ^ 64 > pmmMaxPhys then (if s ≥ pmmMaxPhys then 0 else pmmMaxPhys - s) else l
    let f0 := (s + (frameSize - 1)) % 2 ^ 64 / frameSize
    let f1 := (s + l) % 2 ^ 64 / frameSize
    releaseLoop (f1 - f0) f0 p
  else p

/-- `pmm_init` for the entries of the map and the kernel image `[kstart, kend)`. -/
def pmmInit (es : List MmapEntry) (kstart kend : Nat) : Pmm :=
  let p : Pmm :=
    { bitmap := fun _ => 0xFF, totalFrames := pmmMaxPhys / frameSize, freeFrames := 0, cursor := 0 }
  let p := es.foldl (fun p e => initEntry e p) p
  let k0 := kstart / frameSize
  let k1 := (kend + (frameSize - 1)) % 2 ^ 64 / frameSize
  setUsedLoop (k1 - k0) k0 p

/-! ## Reserving, taking, giving back -/

def pmmReserve (start fin : Nat) (p : Pmm) : Pmm :=
  let f0 := start / frameSize
  let f1 := (fin + (frameSize - 1)) % 2 ^ 64 / frameSize
  if f0 ≥ p.totalFrames then p
  else
    let f1 := if f1 > p.totalFrames then p.totalFrames else f1
    setUsedLoop (f1 - f0) f0 p

/-- The search of `pmm_alloc_frame`, `n` rounds from round `i` on. The sums do not wrap:
`cursor` and `i` are below `total_frames`. -/
def allocLoop : Nat → Nat → Pmm → Nat × Pmm
  | 0, _, p => (0, p)
  | n + 1, i, p =>
    let f := (p.cursor + i) % p.totalFrames
    if p.used f then allocLoop n (i + 1) p
    else
      (f * frameSize, { p with
        bitmap := setBit p.bitmap f
        freeFrames := (p.freeFrames + (2 ^ 64 - 1)) % 2 ^ 64
        cursor := (f + 1) % p.totalFrames })

/-- `pmm_alloc_frame()`: the address of a frame, 0 when there is none. -/
def pmmAllocFrame (p : Pmm) : Nat × Pmm := allocLoop p.totalFrames 0 p

def pmmFreeFrame (phys : Nat) (p : Pmm) : Pmm :=
  let f := phys / frameSize
  if f < p.totalFrames ∧ p.used f then
    { p with bitmap := clearBit p.bitmap f, freeFrames := (p.freeFrames + 1) % 2 ^ 64 }
  else p

/-! ## The invariant -/

/-- The count is right, the cursor in range, and frame 0, whose address would read as a
failure, is never free. -/
structure PmmInv (p : Pmm) : Prop where
  total : p.totalFrames = 262144
  count : p.freeFrames = clearCount p.bitmap 262144
  cursor : p.cursor < p.totalFrames
  zero : p.used 0 = true

/-- One fewer, without wrapping. -/
theorem dec_count {m : Nat → BitVec 8} {k f : Nat} (hk : k = clearCount m 262144) (hf : f < 262144)
    (hc : getBit m f = false) : (k + (2 ^ 64 - 1)) % 2 ^ 64 = clearCount (setBit m f) 262144 := by
  have hset := clearCount_setBit hf hc
  have hle := clearCount_le m 262144
  omega

theorem inc_count {m : Nat → BitVec 8} {k f : Nat} (hk : k = clearCount m 262144) (hf : f < 262144)
    (hs : getBit m f = true) : (k + 1) % 2 ^ 64 = clearCount (clearBit m f) 262144 := by
  have hclear := clearCount_clearBit hf hs
  have hle := clearCount_le (clearBit m f) 262144
  omega

theorem setUsed_used (f : Nat) (p : Pmm) (g : Nat) :
    (setUsed f p).used g = (decide (g = f) || p.used g) := by
  unfold setUsed
  split
  · next hu =>
    by_cases hg : g = f
    · rw [hg, hu]
      simp
    · simp [hg]
  · exact getBit_setBit _ _ _

theorem setUsed_inv {p : Pmm} (h : PmmInv p) {f : Nat} (hf : f < 262144) :
    PmmInv (setUsed f p) := by
  have hzero : (setUsed f p).used 0 = true := by
    rw [setUsed_used, h.zero, Bool.or_true]
  unfold setUsed at hzero ⊢
  split at hzero
  · next hu =>
    rw [if_pos hu]
    exact h
  · next hu =>
    rw [if_neg hu]
    exact ⟨h.total, dec_count h.count hf (Bool.eq_false_iff.mpr hu), h.cursor, hzero⟩

theorem setUsedLoop_inv : ∀ (n f : Nat) {p : Pmm}, PmmInv p → f + n ≤ 262144 →
    PmmInv (setUsedLoop n f p)
  | 0, _, _, h, _ => h
  | n + 1, f, _, h, hn => setUsedLoop_inv n (f + 1) (setUsed_inv h (by omega)) (by omega)

theorem setUsedLoop_used : ∀ (n f : Nat) (p : Pmm) (g : Nat),
    (setUsedLoop n f p).used g = true ↔ (f ≤ g ∧ g < f + n) ∨ p.used g = true
  | 0, f, p, g => by
    rw [setUsedLoop]
    constructor
    · exact Or.inr
    · intro hx
      rcases hx with h | h
      · omega
      · exact h
  | n + 1, f, p, g => by
    rw [setUsedLoop, setUsedLoop_used n (f + 1), setUsed_used, Bool.or_eq_true, decide_eq_true_eq]
    constructor
    · intro hx
      rcases hx with h | h | h
      · exact Or.inl (by omega)
      · exact Or.inl (by omega)
      · exact Or.inr h
    · intro hx
      rcases hx with h | h
      · by_cases hg : g = f
        · exact Or.inr (Or.inl hg)
        · exact Or.inl (by omega)
      · exact Or.inr (Or.inr h)

theorem pmmReserve_inv {p : Pmm} (h : PmmInv p) (start fin : Nat) :
    PmmInv (pmmReserve start fin p) := by
  have htotal := h.total
  unfold pmmReserve
  dsimp only
  split
  · exact h
  · refine setUsedLoop_inv _ _ h ?_
    split <;> omega

/-! ## Taking a frame -/

/-- What the search rests on. -/
structure PmmOk (p : Pmm) : Prop where
  total : p.totalFrames = 262144
  cursor : p.cursor < p.totalFrames

theorem PmmInv.ok {p : Pmm} (h : PmmInv p) : PmmOk p := ⟨h.total, h.cursor⟩

/-- Frame `f` taken, the cursor behind it. -/
def Pmm.take (f : Nat) (p : Pmm) : Pmm :=
  { p with
    bitmap := setBit p.bitmap f
    freeFrames := (p.freeFrames + (2 ^ 64 - 1)) % 2 ^ 64
    cursor := (f + 1) % p.totalFrames }

theorem take_used (f : Nat) (p : Pmm) (g : Nat) :
    (p.take f).used g = (decide (g = f) || p.used g) :=
  getBit_setBit _ _ _

theorem take_ok {p : Pmm} (h : PmmOk p) (f : Nat) : PmmOk (p.take f) := by
  have hcur := h.cursor
  exact ⟨h.total, Nat.mod_lt _ (by omega)⟩

/-- The frames that are free, in the order in which `pmm_alloc_frame` will find them. -/
def supply (p : Pmm) : List Nat := nextFit p.used p.cursor p.totalFrames

theorem mem_supply {p : Pmm} (h : PmmOk p) {f : Nat} :
    f ∈ supply p ↔ f < 262144 ∧ p.used f = false := by
  rw [supply, mem_nextFit h.cursor, h.total]

/-- The search takes the first free frame from the cursor on. -/
theorem allocLoop_eq : ∀ (n i : Nat) (p : Pmm), allocLoop n i p =
    match scanFrom p.used p.cursor p.totalFrames i n with
    | [] => (0, p)
    | f :: _ => (f * frameSize, p.take f)
  | 0, _, _ => rfl
  | n + 1, i, p => by
    rw [allocLoop, scanFrom_succ]
    by_cases hu : p.used ((p.cursor + i) % p.totalFrames) = true
    · rw [if_pos hu, if_pos hu]
      exact allocLoop_eq n (i + 1) p
    · rw [if_neg hu, if_neg hu]
      rfl

theorem pmmAllocFrame_nil {p : Pmm} (h : supply p = []) : pmmAllocFrame p = (0, p) := by
  have hscan : scanFrom p.used p.cursor p.totalFrames 0 p.totalFrames = [] := h
  rw [pmmAllocFrame, allocLoop_eq, hscan]

theorem pmmAllocFrame_cons {p : Pmm} {f : Nat} {l : List Nat} (h : supply p = f :: l) :
    pmmAllocFrame p = (f * frameSize, p.take f) := by
  have hscan : scanFrom p.used p.cursor p.totalFrames 0 p.totalFrames = f :: l := h
  rw [pmmAllocFrame, allocLoop_eq, hscan]

theorem supply_take {p : Pmm} {f : Nat} {l : List Nat} (h : supply p = f :: l) :
    supply (p.take f) = l := by
  have hused : (p.take f).used = fun g => decide (g = f) || p.used g := funext (take_used f p)
  rw [supply, hused]
  exact nextFit_take h

/-- **`pmm_alloc_frame`**: it fails exactly when every frame is used, and otherwise takes
one frame that was not. -/
theorem pmmAllocFrame_spec {p : Pmm} (h : PmmInv p) :
    (pmmAllocFrame p = (0, p) ∧ ∀ f < 262144, p.used f = true) ∨
    ∃ f, f < 262144 ∧ 0 < f ∧ p.used f = false ∧ (pmmAllocFrame p).1 = f * frameSize ∧
      PmmInv (pmmAllocFrame p).2 ∧
      ∀ g, (pmmAllocFrame p).2.used g = (decide (g = f) || p.used g) := by
  cases hs : supply p with
  | nil =>
    refine Or.inl ⟨pmmAllocFrame_nil hs, fun f hf => ?_⟩
    by_contra hfree
    have hmem : f ∈ supply p := (mem_supply h.ok).mpr ⟨hf, by simpa using hfree⟩
    rw [hs] at hmem
    exact absurd hmem (by simp)
  | cons f l =>
    obtain ⟨hf, hfree⟩ := (mem_supply h.ok).mp (by rw [hs]; exact List.mem_cons_self)
    have hpos : 0 < f := by
      refine Nat.pos_of_ne_zero fun h0 => ?_
      rw [h0, h.zero] at hfree
      exact absurd hfree (by simp)
    have hzero : (p.take f).used 0 = true := by
      rw [take_used, h.zero, Bool.or_true]
    have hinv : PmmInv (p.take f) :=
      ⟨h.total, dec_count h.count hf hfree, (take_ok h.ok f).cursor, hzero⟩
    rw [pmmAllocFrame_cons hs]
    exact Or.inr ⟨f, hf, hpos, hfree, rfl, hinv, take_used f p⟩

theorem pmmFreeFrame_used (phys : Nat) (p : Pmm) (g : Nat) :
    (pmmFreeFrame phys p).used g = true →
      p.used g = true ∧ (g = phys / frameSize → ¬ g < p.totalFrames) := by
  unfold pmmFreeFrame
  dsimp only
  split
  · intro hu
    have hget : getBit (clearBit p.bitmap (phys / frameSize)) g = true := hu
    rw [getBit_clearBit, Bool.and_eq_true, decide_eq_true_eq] at hget
    exact ⟨hget.2, fun he => absurd he hget.1⟩
  · next hno =>
    intro hu
    refine ⟨hu, ?_⟩
    intro he hlt
    subst he
    exact hno ⟨hlt, hu⟩

theorem pmmFreeFrame_keeps {phys : Nat} {p : Pmm} {g : Nat} (hu : p.used g = true)
    (hg : g ≠ phys / frameSize) : (pmmFreeFrame phys p).used g = true := by
  unfold pmmFreeFrame
  dsimp only
  split
  · show getBit (clearBit p.bitmap (phys / frameSize)) g = true
    rw [getBit_clearBit, decide_eq_true hg, Bool.true_and]
    exact hu
  · exact hu

theorem pmmFreeFrame_inv {p : Pmm} (h : PmmInv p) {phys : Nat} (hp : 4096 ≤ phys) :
    PmmInv (pmmFreeFrame phys p) := by
  have hpos : 0 ≠ phys / frameSize := by
    have : 0 < phys / frameSize := Nat.div_pos hp (by decide)
    omega
  have hzero := pmmFreeFrame_keeps h.zero hpos
  have htotal := h.total
  unfold pmmFreeFrame at hzero ⊢
  dsimp only at hzero ⊢
  split at hzero
  · next hf =>
    rw [if_pos hf]
    exact ⟨h.total, inc_count h.count (by omega) hf.2, h.cursor, hzero⟩
  · next hf =>
    rw [if_neg hf]
    exact h

/-! ## Histories -/

inductive PmmOp
  | alloc
  | reserve (start fin : Nat)
  | free (phys : Nat)

/-- The calls the rest of the kernel makes. -/
def PmmOp.Ok : PmmOp → Prop
  | alloc => True
  | reserve _ fin => fin < 2 ^ 32
  | free phys => 4096 ≤ phys

def PmmOp.run : PmmOp → Pmm → Pmm
  | alloc, p => (pmmAllocFrame p).2
  | reserve start fin, p => pmmReserve start fin p
  | free phys, p => pmmFreeFrame phys p

def pmmRun (ops : List PmmOp) (p : Pmm) : Pmm := ops.foldl (fun p o => o.run p) p

theorem PmmOp.run_inv {p : Pmm} (h : PmmInv p) {o : PmmOp} (ho : o.Ok) : PmmInv (o.run p) := by
  cases o with
  | alloc =>
    rcases pmmAllocFrame_spec h with ⟨hrun, -⟩ | ⟨f, -, -, -, -, hinv, -⟩
    · rw [PmmOp.run, hrun]
      exact h
    · exact hinv
  | reserve start fin => exact pmmReserve_inv h start fin
  | free phys => exact pmmFreeFrame_inv h ho

theorem pmmRun_inv : ∀ {ops : List PmmOp} {p : Pmm}, PmmInv p → (∀ o ∈ ops, o.Ok) →
    PmmInv (pmmRun ops p)
  | [], _, h, _ => h
  | o :: ops, p, h, ho => by
    have hstep : PmmInv (o.run p) := PmmOp.run_inv h (ho o (by simp))
    exact @pmmRun_inv ops (o.run p) hstep fun x hx => ho x (List.mem_cons_of_mem _ hx)

/-- A used frame stays used until it is given back. -/
theorem PmmOp.run_used {p : Pmm} (h : PmmInv p) {o : PmmOp} {f : Nat} (hu : p.used f = true)
    (hf : ∀ phys, o = .free phys → phys / frameSize ≠ f) : (o.run p).used f = true := by
  cases o with
  | alloc =>
    rcases pmmAllocFrame_spec h with ⟨hrun, -⟩ | ⟨g, -, -, -, -, -, hused⟩
    · rw [PmmOp.run, hrun]
      exact hu
    · rw [PmmOp.run, hused, hu, Bool.or_true]
  | reserve start fin =>
    unfold PmmOp.run pmmReserve
    dsimp only
    split
    · exact hu
    · exact (setUsedLoop_used _ _ _ _).mpr (Or.inr hu)
  | free phys => exact pmmFreeFrame_keeps hu (Ne.symm (hf phys rfl))

theorem pmmRun_used : ∀ {ops : List PmmOp} {p : Pmm}, PmmInv p → (∀ o ∈ ops, o.Ok) → ∀ {f : Nat},
    p.used f = true → (∀ phys, .free phys ∈ ops → phys / frameSize ≠ f) →
    (pmmRun ops p).used f = true
  | [], _, _, _, _, hu, _ => hu
  | o :: ops, p, h, ho, f, hu, hf => by
    have hstep : (o.run p).used f = true :=
      PmmOp.run_used h hu fun phys he => hf phys (by simp [he])
    exact @pmmRun_used ops (o.run p) (PmmOp.run_inv h (ho o (by simp)))
      (fun x hx => ho x (List.mem_cons_of_mem _ hx)) f hstep
      fun phys hx => hf phys (List.mem_cons_of_mem _ hx)

/-- **The allocator in every reachable state**: the count is exact; a frame is handed out
exactly when one is free, it was free, and only its bit changes; and a frame handed out is
not handed out again unless it was given back in between. -/
theorem pmm_run {p : Pmm} (h : PmmInv p) {ops : List PmmOp} (hops : ∀ o ∈ ops, o.Ok) :
    let q := pmmRun ops p
    PmmInv q ∧
    ((pmmAllocFrame q).1 = 0 ↔ ∀ f < 262144, q.used f = true) ∧
    ((pmmAllocFrame q).1 ≠ 0 → ∃ f < 262144, (pmmAllocFrame q).1 = 4096 * f ∧
      q.used f = false ∧ ∀ g, (pmmAllocFrame q).2.used g = (decide (g = f) || q.used g)) ∧
    ∀ mid, (∀ o ∈ mid, o.Ok) → (pmmAllocFrame q).1 ≠ 0 →
      (∀ phys, .free phys ∈ mid → phys / 4096 * 4096 ≠ (pmmAllocFrame q).1) →
      (pmmAllocFrame (pmmRun mid (pmmAllocFrame q).2)).1 ≠ (pmmAllocFrame q).1 := by
  intro q
  have hq : PmmInv q := pmmRun_inv h hops
  rcases pmmAllocFrame_spec hq with ⟨hrun, hall⟩ | ⟨f, hf, hpos, hc, hret, hinv, hused⟩
  · refine ⟨hq, ⟨fun _ => hall, fun _ => by rw [hrun]⟩, fun hne => ?_, fun mid _ hne => ?_⟩
    · exact absurd (by rw [hrun]) hne
    · exact absurd (by rw [hrun]) hne
  · have hne0 : (pmmAllocFrame q).1 ≠ 0 := by
      rw [hret]
      exact Nat.mul_ne_zero (by omega) (by decide)
    refine ⟨hq, ⟨fun h0 => absurd h0 hne0, fun hall => ?_⟩, fun _ => ?_, fun mid hmid _ hfree => ?_⟩
    · rw [hall f hf] at hc
      exact absurd hc (by simp)
    · exact ⟨f, hf, by rw [hret, frameSize, Nat.mul_comm], hc, hused⟩
    · -- the frame is still used when the next one is taken
      have hstill : (pmmRun mid (pmmAllocFrame q).2).used f = true := by
        refine pmmRun_used hinv hmid ?_ fun phys hp he => hfree phys hp ?_
        · rw [hused, decide_eq_true rfl, Bool.true_or]
        · rw [hret, ← he]
          rfl
      rcases pmmAllocFrame_spec (pmmRun_inv hinv hmid) with ⟨hrun, -⟩ | ⟨g, -, -, hg, hretg, -, -⟩
      · rw [hrun]
        exact Ne.symm hne0
      · rw [hretg, hret]
        intro he
        have hgf : g = f := Nat.eq_of_mul_eq_mul_right (by decide) he
        rw [hgf, hstill] at hg
        exact absurd hg (by simp)

/-- A machine with no memory above the kernel: every frame used. -/
def fullPmm : Pmm :=
  { bitmap := fun _ => 0xFF, totalFrames := 262144, freeFrames := 0, cursor := 0 }

theorem fullPmm_used (f : Nat) : fullPmm.used f = true := by
  show getBit (fun _ => 0xFF) f = true
  rw [getBit_eq]
  exact (by decide : ∀ i < 8, (0xFF#8).getLsbD i = true) (f % 8) (Nat.mod_lt _ (by omega))

theorem fullPmm_inv : PmmInv fullPmm := by
  refine ⟨rfl, (clearCount_eq_zero fun f _ => fullPmm_used f).symm, ?_, fullPmm_used 0⟩
  show 0 < 262144
  omega

/-- Frame 2 is given back to a full machine, and taken again. -/
theorem pmm_run_full :
    (∀ o ∈ [PmmOp.free 8192], o.Ok) ∧ (pmmAllocFrame (pmmRun [.free 8192] fullPmm)).1 ≠ 0 := by
  have hok : ∀ o ∈ [PmmOp.free 8192], o.Ok := by
    intro o ho
    rw [List.mem_singleton.mp ho]
    show 4096 ≤ 8192
    omega
  refine ⟨hok, fun h0 => ?_⟩
  have hall := (pmm_run fullPmm_inv hok).2.1.mp h0 2 (by omega)
  exact absurd hall (by decide)

end InaneOS.Mem
