import InaneOS.Mem.Vmm

/-!
# The memory map: `pmm_init`

The boot loader leaves the memory map as a run of bytes. Every entry begins with its own
size, so the loop of `pmm_init` finds the next one only behind the last. `mmapEntries`
is the list of the entries it comes to, whatever their sizes are, and `pmmInitAt_eq`
says that the loop is a fold over that list.

`MmapEntry.frames` are the frames one round makes free, as the code computes them;
`mem_frames` says which these are. `pmmInit_free_iff` puts the rounds together.
-/

namespace InaneOS.Mem

open InaneOS.Lib

/-! ## The walk over the bytes -/

/-- `e->size` -/
def mmapSize (m : Mach) (cur : Nat) : Nat := readLe m 4 cur

/-- The `mmap_entry` at `cur`, which is packed. -/
def mmapEntryAt (m : Mach) (cur : Nat) : MmapEntry :=
  ⟨readLe m 8 (cur + 4), readLe m 8 (cur + 12), readLe m 4 (cur + 20)⟩

/-- The loop over the memory map. It does not write to the map, and `mmap_addr + mmap_len` fits into
a pointer, as both are 32 bits wide. -/
def mmapLoop (m : Mach) (fin cur : Nat) (p : Pmm) : Pmm :=
  if _h : cur < fin then
    mmapLoop m fin (cur + (mmapSize m cur + 4)) (initEntry (mmapEntryAt m cur) p)
  else p
  termination_by fin - cur
  decreasing_by omega

/-- `pmm_init(mmap_addr, mmap_len)` for the kernel image `[kstart, kend)`. -/
def pmmInitAt (m : Mach) (mmapAddr mmapLen kstart kend : Nat) : Pmm :=
  let p : Pmm :=
    { bitmap := fun _ => 0xFF, totalFrames := pmmMaxPhys / frameSize, freeFrames := 0, cursor := 0 }
  let p := mmapLoop m (mmapAddr + mmapLen) mmapAddr p
  let k0 := kstart / frameSize
  let k1 := (kend + (frameSize - 1)) % 2 ^ 64 / frameSize
  setUsedLoop (k1 - k0) k0 p

/-- The entries the loop comes to. -/
def mmapEntries (m : Mach) (fin cur : Nat) : List MmapEntry :=
  if _h : cur < fin then mmapEntryAt m cur :: mmapEntries m fin (cur + (mmapSize m cur + 4)) else []
  termination_by fin - cur
  decreasing_by omega

section Walk

variable {m : Mach} {fin : Nat}

theorem mmapLoop_eq : ∀ (cur : Nat) (p : Pmm),
    mmapLoop m fin cur p = (mmapEntries m fin cur).foldl (fun p e => initEntry e p) p
  | cur, p => by
    rw [mmapLoop, mmapEntries]
    split
    · rw [mmapLoop_eq (cur + (mmapSize m cur + 4))]
      rfl
    · rfl
  termination_by cur => fin - cur
  decreasing_by omega

/-- The loop takes a round for every four bytes at most. -/
theorem mmapEntries_length (cur : Nat) : 4 * (mmapEntries m fin cur).length ≤ fin - cur + 3 := by
  rw [mmapEntries]
  split
  · have hrest := mmapEntries_length (cur + (mmapSize m cur + 4))
    rw [List.length_cons]
    omega
  · exact Nat.zero_le _
  termination_by fin - cur
  decreasing_by omega

theorem mmapEntries_cons {cur : Nat} (h : cur < fin) : mmapEntries m fin cur =
    mmapEntryAt m cur :: mmapEntries m fin (cur + (mmapSize m cur + 4)) := by
  rw [mmapEntries, dif_pos h]

theorem mmapEntries_nil {cur : Nat} (h : ¬ cur < fin) : mmapEntries m fin cur = [] := by
  rw [mmapEntries, dif_neg h]

theorem pmmInitAt_eq (m : Mach) (mmapAddr mmapLen kstart kend : Nat) :
    pmmInitAt m mmapAddr mmapLen kstart kend =
    pmmInit (mmapEntries m (mmapAddr + mmapLen) mmapAddr) kstart kend := by
  unfold pmmInitAt pmmInit
  dsimp only
  rw [mmapLoop_eq]

end Walk

/-! ## The frames of an entry -/

/-- Start and length behind the cuts at 1 MB and at 1 GB. -/
def MmapEntry.clip (e : MmapEntry) : Nat × Nat :=
  let (s, l) :=
    if e.addr < 0x100000 then
      let cut := 0x100000 - e.addr
      if cut ≥ e.len then (e.addr, 0) else (e.addr + cut, e.len - cut)
    else (e.addr, e.len)
  (s, if (s + l) % 2 ^ 64 > pmmMaxPhys then (if s ≥ pmmMaxPhys then 0 else pmmMaxPhys - s) else l)

/-- `f0` and `f1` -/
def MmapEntry.first (e : MmapEntry) : Nat := (e.clip.1 + (frameSize - 1)) % 2 ^ 64 / frameSize
def MmapEntry.last (e : MmapEntry) : Nat := (e.clip.1 + e.clip.2) % 2 ^ 64 / frameSize

/-- The frames that the round for `e` makes free. -/
def MmapEntry.frames (e : MmapEntry) : List Nat :=
  if e.type = memAvailable then List.range' e.first (e.last - e.first) else []

theorem initEntry_eq (e : MmapEntry) (p : Pmm) : initEntry e p =
    if e.type = memAvailable then releaseLoop (e.last - e.first) e.first p else p := rfl

/-- The whole frames of a region between 1 MB and 1 GB. -/
structure Usable (e : MmapEntry) (f : Nat) : Prop where
  available : e.type = memAvailable
  inside : e.addr ≤ f * 4096 ∧ (f + 1) * 4096 ≤ e.addr + e.len
  low : 0x100000 ≤ f * 4096
  high : (f + 1) * 4096 ≤ 0x40000000

/-- Where the cuts leave a region that does not reach the end of the address space. -/
theorem clip_spec {e : MmapEntry} (he : e.addr + e.len + 4096 ≤ 2 ^ 64) :
    e.clip.1 + e.clip.2 + 4096 ≤ 2 ^ 64 ∧
      ∀ f, (e.clip.1 ≤ f * 4096 ∧ (f + 1) * 4096 ≤ e.clip.1 + e.clip.2) ↔
      (e.addr ≤ f * 4096 ∧ (f + 1) * 4096 ≤ e.addr + e.len) ∧ 0x100000 ≤ f * 4096 ∧
        (f + 1) * 4096 ≤ 0x40000000 := by
  unfold MmapEntry.clip pmmMaxPhys
  by_cases hlow : e.addr < 0x100000
  · rw [if_pos hlow]
    by_cases hcut : 0x100000 - e.addr ≥ e.len
    · dsimp only
      rw [if_pos hcut]
      dsimp only
      rw [if_neg (by omega)]
      exact ⟨by omega, fun f => by omega⟩
    · dsimp only
      rw [if_neg hcut]
      dsimp only
      split
      · rw [if_neg (by omega)]
        exact ⟨by omega, fun f => by omega⟩
      · exact ⟨by omega, fun f => by omega⟩
  · rw [if_neg hlow]
    dsimp only
    split
    · split
      · exact ⟨by omega, fun f => by omega⟩
      · exact ⟨by omega, fun f => by omega⟩
    · exact ⟨by omega, fun f => by omega⟩

/-- **One entry** makes its usable frames free, and no others. -/
theorem mem_frames {e : MmapEntry} (he : e.addr + e.len + 4096 ≤ 2 ^ 64) {f : Nat} :
    f ∈ e.frames ↔ Usable e f := by
  obtain ⟨hfit, hclip⟩ := clip_spec he
  unfold MmapEntry.frames
  by_cases htype : e.type = memAvailable
  · have hrange : f ∈ List.range' e.first (e.last - e.first) ↔
        e.clip.1 ≤ f * 4096 ∧ (f + 1) * 4096 ≤ e.clip.1 + e.clip.2 := by
      rw [List.mem_range'_1]
      unfold MmapEntry.first MmapEntry.last frameSize
      rw [Nat.mod_eq_of_lt (by omega), Nat.mod_eq_of_lt (by omega)]
      omega
    rw [if_pos htype, hrange, hclip]
    exact ⟨fun h => ⟨htype, h.1, h.2.1, h.2.2⟩, fun h => ⟨h.inside, h.low, h.high⟩⟩
  · rw [if_neg htype]
    exact ⟨fun h => absurd h (by simp), fun h => absurd h.available htype⟩

/-! ## All entries -/

theorem releaseLoop_used : ∀ (n f : Nat) (p : Pmm) (g : Nat),
    (releaseLoop n f p).used g = (p.used g && !decide (f ≤ g ∧ g < f + n))
  | 0, f, p, g => by
    rw [releaseLoop, decide_eq_false (by omega), Bool.not_false, Bool.and_true]
  | n + 1, f, p, g => by
    rw [releaseLoop, releaseLoop_used n (f + 1)]
    have hclear : getBit (clearBit p.bitmap f) g = (decide (g ≠ f) && p.used g) :=
      getBit_clearBit _ _ _
    show (getBit (clearBit p.bitmap f) g && _) = _
    rw [hclear]
    by_cases hg : g = f
    · rw [hg]
      simp
    · have hiff : (f + 1 ≤ g ∧ g < f + 1 + n) ↔ (f ≤ g ∧ g < f + (n + 1)) := by omega
      simp only [hiff, hg, ne_eq, not_false_eq_true, decide_true, Bool.true_and]

theorem initEntry_used (e : MmapEntry) (p : Pmm) (f : Nat) :
    (initEntry e p).used f = false ↔ f ∈ e.frames ∨ p.used f = false := by
  rw [initEntry_eq, MmapEntry.frames]
  split
  · rw [releaseLoop_used, List.mem_range'_1, Bool.and_eq_false_iff, Bool.not_eq_false',
      decide_eq_true_eq]
    exact or_comm
  · exact ⟨Or.inr, fun h => h.resolve_left (by simp)⟩

theorem foldl_used (f : Nat) : ∀ (es : List MmapEntry) (p : Pmm),
    (es.foldl (fun p e => initEntry e p) p).used f = false ↔ (∃ e ∈ es, f ∈ e.frames) ∨
      p.used f = false
  | [], p => ⟨Or.inr, fun h => h.resolve_left (by simp)⟩
  | e :: es, p => by
    rw [List.foldl_cons, foldl_used f es, initEntry_used, List.exists_mem_cons_iff]
    constructor
    · intro hx
      rcases hx with h | h | h
      · exact Or.inl (Or.inr h)
      · exact Or.inl (Or.inl h)
      · exact Or.inr h
    · intro hx
      rcases hx with (h | h) | h
      · exact Or.inr (Or.inl h)
      · exact Or.inl h
      · exact Or.inr (Or.inr h)

/-- **`pmm_init` frees exactly the usable frames** that do not overlap the kernel, and its loop
takes a round for every four bytes of the map at most. -/
theorem pmmInit_free_iff {m : Mach} {mmapAddr mmapLen kstart kend : Nat}
    (hk : kstart < kend ∧ kend ≤ 0x40000000)
    (hes : ∀ e ∈ mmapEntries m (mmapAddr + mmapLen) mmapAddr, e.addr + e.len + 4096 ≤ 2 ^ 64) :
    (∀ f, (pmmInitAt m mmapAddr mmapLen kstart kend).used f = false ↔
      (∃ e ∈ mmapEntries m (mmapAddr + mmapLen) mmapAddr, Usable e f) ∧
        ¬ (f * 4096 < kend ∧ kstart < (f + 1) * 4096)) ∧
    4 * (mmapEntries m (mmapAddr + mmapLen) mmapAddr).length ≤ mmapLen + 3 := by
  constructor
  · intro f
    have hkernel : (kstart / 4096 ≤ f ∧ f < kstart / 4096 + ((kend + 4095) / 4096 - kstart / 4096))
      ↔
        (f * 4096 < kend ∧ kstart < (f + 1) * 4096) := by omega
    have hmap : (∃ e ∈ mmapEntries m (mmapAddr + mmapLen) mmapAddr, f ∈ e.frames) ↔
        ∃ e ∈ mmapEntries m (mmapAddr + mmapLen) mmapAddr, Usable e f :=
      ⟨fun ⟨e, he, hf⟩ => ⟨e, he, (mem_frames (hes e he)).mp hf⟩,
        fun ⟨e, he, hf⟩ => ⟨e, he, (mem_frames (hes e he)).mpr hf⟩⟩
    rw [pmmInitAt_eq, ← Bool.not_eq_true, pmmInit, setUsedLoop_used]
    unfold frameSize
    rw [Nat.mod_eq_of_lt (by omega), hkernel, not_or, Bool.not_eq_true]
    rw [foldl_used, hmap, and_comm]
    exact and_congr_left fun _ => or_iff_left fun hfree =>
      absurd (hfree.symm.trans (fullPmm_used f)) (by simp)
  · have hlen := @mmapEntries_length m (mmapAddr + mmapLen) mmapAddr
    omega

/-- Two pages at 2 MB, which the memory map at 0x9000 names twice. -/
def twice : Mach where
  mem f i := if f = 9 then [0x0020000000000014, 0x0000200000000000, 0x0000000100000000,
    0x0020000000000014, 0x0000200000000000, 0x0000000100000000].getD i 0 else 0
  pmm := fullPmm
  pml4 := 1
  starved := false
  strayed := false

theorem twice_entries : mmapEntries twice (0x9000 + 48) 0x9000 =
    [⟨0x200000, 0x2000, 1⟩, ⟨0x200000, 0x2000, 1⟩] := by
  have hsize : mmapSize twice 0x9000 = 20 := by decide
  have hsize' : mmapSize twice 0x9018 = 20 := by decide
  have hfirst : mmapEntryAt twice 0x9000 = ⟨0x200000, 0x2000, 1⟩ := rfl
  have hsecond : mmapEntryAt twice 0x9018 = ⟨0x200000, 0x2000, 1⟩ := rfl
  rw [mmapEntries_cons (by omega), hsize, hfirst, mmapEntries_cons (by omega)]
  rw [show 0x9000 + (20 + 4) = 0x9018 from rfl, hsize', hsecond, mmapEntries_nil (by omega)]

theorem pmmInit_free_twice : (pmmInitAt twice 0x9000 48 0x100000 0x180000).used 0x201 = false ∧
    (pmmInitAt twice 0x9000 48 0x100000 0x180000).used 0x202 = true := by
  have hes : ∀ e ∈ mmapEntries twice (0x9000 + 48) 0x9000, e.addr + e.len + 4096 ≤ 2 ^ 64 := by
    rw [twice_entries]
    decide
  have hfree := (@pmmInit_free_iff twice 0x9000 48 0x100000 0x180000 (by omega) hes).1
  constructor
  · apply (hfree 0x201).mpr
    rw [twice_entries]
    exact ⟨⟨_, List.mem_cons_self, rfl, by decide, by decide, by decide⟩, by omega⟩
  · rw [← Bool.not_eq_false, hfree, twice_entries]
    intro ⟨⟨e, he, hf⟩, _⟩
    obtain rfl : e = ⟨0x200000, 0x2000, 1⟩ := by simpa using he
    have hend := hf.inside.2
    dsimp only at hend
    omega

end InaneOS.Mem
