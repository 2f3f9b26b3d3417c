import InaneOS.Mem.Boot

/-!
# The count of free frames at start-up

`set_used` looks at the bit before it counts, the loop of `pmm_init` that clears bits
does not. So `free_frames` runs ahead of the bitmap by the number of clearings that find
nothing to clear (`surplus`). Nothing that follows makes up for it or adds to it
(`Ahead`), and the figure that `SYS_MEMINFO` prints stays wrong by as much
(`freeFrames_exact_iff`). In a map without wrapping regions the surplus is 0 when no
usable frame is named twice (`surplus_sane`).
-/

namespace InaneOS.Mem

open InaneOS.Lib

/-- `pmm_free_kb()` -/
def pmmFreeKb (p : Pmm) : Nat := p.freeFrames * 4 % 2 ^ 64

/-- Calls of `exec_init_mods`, each for a module list of its own. -/
def reserveAll (calls : List (List MbMod)) (p : Pmm) : Pmm :=
  calls.foldl (fun p bs => (execInitMods bs [] p).2) p

/-- The count is that of the clear bits, and the figure reported is the memory that
`pmm_alloc_frame` can still hand out. -/
structure Counted (p : Pmm) : Prop where
  count : p.freeFrames = clearCount p.bitmap 262144
  report : pmmFreeKb p = 4 * (supply p).length

/-- The count is ahead of the bitmap by `d`. -/
def Ahead (d : Nat) (p : Pmm) : Prop := p.freeFrames = (clearCount p.bitmap 262144 + d) % 2 ^ 64

/-! ## Clearing -/

/-- The frames that the loop over the map clears, in order. -/
def released (es : List MmapEntry) : List Nat := es.flatMap MmapEntry.frames

/-- The clearings that make no frame free: the bit is clear, or lies behind the bitmap. -/
def surplus (es : List MmapEntry) : Nat :=
  (released es).length - ((released es).toFinset.filter (· < 262144)).card

theorem releaseLoop_count : ∀ (n f : Nat) {p : Pmm}, p.freeFrames < 2 ^ 64 →
    (releaseLoop n f p).freeFrames = (p.freeFrames + n) % 2 ^ 64
  | 0, _, p, h => by
    rw [Nat.add_zero, Nat.mod_eq_of_lt h]
    rfl
  | n + 1, f, p, _ => by
    rw [releaseLoop, releaseLoop_count n (f + 1) (Nat.mod_lt _ (by omega))]
    dsimp only
    omega

theorem initEntry_count (e : MmapEntry) {p : Pmm} (h : p.freeFrames < 2 ^ 64) :
    (initEntry e p).freeFrames = (p.freeFrames + e.frames.length) % 2 ^ 64 := by
  rw [initEntry_eq, MmapEntry.frames]
  split
  · rw [releaseLoop_count _ _ h, List.length_range']
  · rw [List.length_nil, Nat.add_zero, Nat.mod_eq_of_lt h]

theorem foldl_count : ∀ {es : List MmapEntry} {p : Pmm}, p.freeFrames < 2 ^ 64 →
    (es.foldl (fun p e => initEntry e p) p).freeFrames = (p.freeFrames + (released es).length) %
      2 ^ 64
  | [], p, h => (Nat.mod_eq_of_lt h).symm
  | e :: es, p, h => by
    have hstep := initEntry_count e h
    have hlt : (initEntry e p).freeFrames < 2 ^ 64 := by
      rw [hstep]
      exact Nat.mod_lt _ (by omega)
    have hall : (released (e :: es)).length = e.frames.length + (released es).length := by
      unfold released
      rw [List.flatMap_cons, List.length_append]
    rw [List.foldl_cons, foldl_count hlt, hstep, hall]
    omega

theorem card_le_released (es : List MmapEntry) :
    ((released es).toFinset.filter (· < 262144)).card ≤ (released es).length :=
  (Finset.card_filter_le _ _).trans (List.toFinset_card_le _)

/-- **The loop over the map** leaves the count ahead by the surplus. -/
theorem foldl_ahead (es : List MmapEntry) :
    Ahead (surplus es) (es.foldl (fun p e => initEntry e p) fullPmm) := by
  obtain ⟨p, hp⟩ : ∃ p, es.foldl (fun p e => initEntry e p) fullPmm = p := ⟨_, rfl⟩
  have hbits : clearBits p.bitmap 262144 = (released es).toFinset.filter (· < 262144) := by
    ext f
    have hused := foldl_used f es fullPmm
    rw [hp] at hused
    rw [mem_clearBits, Finset.mem_filter, List.mem_toFinset, released, List.mem_flatMap, and_comm]
    refine and_congr_left fun _ => ?_
    exact hused.trans (or_iff_left fun hfree => absurd (hfree.symm.trans (fullPmm_used f))
      (by simp))
  have hcount := @foldl_count es fullPmm (show 0 < 2 ^ 64 by omega)
  have hle := card_le_released es
  rw [hp] at hcount ⊢
  unfold Ahead surplus clearCount
  rw [hbits, hcount, show fullPmm.freeFrames = 0 from rfl, Nat.zero_add, Nat.add_sub_cancel' hle]

/-! ## Reserving -/

section Reserve

variable {d : Nat} {p : Pmm}

theorem setUsed_ahead (h : Ahead d p) {f : Nat} (hf : f < 262144) : Ahead d (setUsed f p) := by
  unfold setUsed
  split
  · exact h
  · next hu =>
    have hset := clearCount_setBit hf (Bool.eq_false_iff.mpr hu)
    unfold Ahead at h ⊢
    dsimp only
    rw [h]
    omega

theorem setUsedLoop_ahead : ∀ (n f : Nat) {p : Pmm}, Ahead d p → f + n ≤ 262144 →
    Ahead d (setUsedLoop n f p)
  | 0, _, _, h, _ => h
  | n + 1, f, _, h, hn => setUsedLoop_ahead n (f + 1) (setUsed_ahead h (by omega)) (by omega)

theorem pmmReserve_ahead (h : Ahead d p) (hok : PmmOk p) (start fin : Nat) :
    Ahead d (pmmReserve start fin p) := by
  have htotal := hok.total
  unfold pmmReserve
  dsimp only
  split
  · exact h
  · refine setUsedLoop_ahead _ _ h ?_
    split <;> omega

theorem execInitMods_ahead : ∀ {bs : List MbMod} {mods : List Module} {p : Pmm}, Ahead d p →
    PmmOk p →
    Ahead d (execInitMods bs mods p).2 ∧ PmmOk (execInitMods bs mods p).2
  | [], _, _, h, hok => ⟨h, hok⟩
  | b :: bs, mods, p, h, hok => by
    rw [execInitMods]
    split
    · exact ⟨h, hok⟩
    · split
      · exact execInitMods_ahead h hok
      · split
        · exact execInitMods_ahead h hok
        · exact execInitMods_ahead (pmmReserve_ahead h hok _ _) (pmmReserve_ok _ _ hok)

theorem reserveAll_ahead : ∀ {calls : List (List MbMod)} {p : Pmm}, Ahead d p → PmmOk p →
    Ahead d (reserveAll calls p) ∧ PmmOk (reserveAll calls p)
  | [], _, h, hok => ⟨h, hok⟩
  | bs :: calls, p, h, hok => by
    obtain ⟨h', hok'⟩ := @execInitMods_ahead d bs [] p h hok
    exact @reserveAll_ahead calls (execInitMods bs [] p).2 h' hok'

/-- **`pmm_init`.** -/
theorem pmmInit_ahead {kstart kend : Nat} (hk : kend ≤ 0x40000000) (es : List MmapEntry) :
    Ahead (surplus es) (pmmInit es kstart kend) ∧ PmmOk (pmmInit es kstart kend) := by
  obtain ⟨p, hp⟩ : ∃ p, es.foldl (fun p e => initEntry e p) fullPmm = p := ⟨_, rfl⟩
  have hinit : pmmInit es kstart kend = setUsedLoop
      ((kend + (frameSize - 1)) % 2 ^ 64 / frameSize - kstart / frameSize) (kstart / frameSize)
        p := by
    rw [← hp]
    rfl
  have hahead : Ahead (surplus es) p := hp ▸ foldl_ahead es
  have hok : PmmOk p := by
    rw [← hp]
    exact List.foldlRecOn es _ fullPmm_inv.ok fun q hq e _ => initEntry_ok e hq
  rw [hinit]
  refine ⟨?_, setUsedLoop_ok _ _ hok⟩
  unfold frameSize
  by_cases hempty : (kend + (4096 - 1)) % 2 ^ 64 / 4096 ≤ kstart / 4096
  · rw [Nat.sub_eq_zero_of_le hempty]
    exact hahead
  · exact setUsedLoop_ahead _ _ hahead (by omega)

/-- The frames that can be handed out are those whose bits are clear. -/
theorem supply_length (hok : PmmOk p) : (supply p).length = clearCount p.bitmap 262144 := by
  have hset : (supply p).toFinset = clearBits p.bitmap 262144 := by
    ext f
    rw [List.mem_toFinset, mem_supply hok, mem_clearBits]
    rfl
  have hnodup : (supply p).Nodup := nextFit_nodup
  rw [clearCount, ← hset, List.toFinset_card_of_nodup hnodup]

theorem counted_iff (h : Ahead d p) (hok : PmmOk p) : Counted p ↔ d % 2 ^ 64 = 0 := by
  have hle := clearCount_le p.bitmap 262144
  have hcount : p.freeFrames = (clearCount p.bitmap 262144 + d) % 2 ^ 64 := h
  constructor
  · intro hc
    have heq := hc.count
    omega
  · intro hd
    have heq : p.freeFrames = clearCount p.bitmap 262144 := by omega
    refine ⟨heq, ?_⟩
    rw [pmmFreeKb, heq, supply_length hok]
    omega

end Reserve

/-- **The count after start-up is exact** exactly when no clearing is idle, whatever modules are
registered afterwards. -/
theorem freeFrames_exact_iff {m : Mach} {mmapAddr mmapLen kstart kend : Nat}
    (hk : kend ≤ 0x40000000)
    (calls : List (List MbMod)) :
    Counted (reserveAll calls (pmmInitAt m mmapAddr mmapLen kstart kend)) ↔
      surplus (mmapEntries m (mmapAddr + mmapLen) mmapAddr) % 2 ^ 64 = 0 := by
  obtain ⟨h, hok⟩ := pmmInit_ahead hk (mmapEntries m (mmapAddr + mmapLen) mmapAddr)
  rw [pmmInitAt_eq]
  obtain ⟨h', hok'⟩ := @reserveAll_ahead _ calls _ h hok
  exact counted_iff h' hok'

/-- The first entry of the map alone, and a module. -/
theorem freeFrames_exact_once : Counted (reserveAll [[⟨0x190000, 0x190078, [105]⟩]]
    (pmmInitAt twice 0x9000 24 0x100000 0x180000)) := by
  have hsize : mmapSize twice 0x9000 = 20 := by decide
  have hfirst : mmapEntryAt twice 0x9000 = ⟨0x200000, 0x2000, 1⟩ := rfl
  have hsurplus : surplus [⟨0x200000, 0x2000, 1⟩] = 0 := by decide
  have hone : surplus (mmapEntries twice (0x9000 + 24) 0x9000) = 0 := by
    rw [mmapEntries_cons (by omega), hsize, hfirst, mmapEntries_nil (by omega)]
    exact hsurplus
  apply (freeFrames_exact_iff (by omega) _).mpr
  exact congrArg (· % 2 ^ 64) hone

/-- **The count is wrong**: two pages that the map names twice are counted as four. -/
theorem freeFrames_twice : ¬ Counted (pmmInitAt twice 0x9000 48 0x100000 0x180000) := by
  have hsurplus : surplus [⟨0x200000, 0x2000, 1⟩, ⟨0x200000, 0x2000, 1⟩] = 2 := by decide
  obtain ⟨h, hok⟩ := @pmmInit_ahead 0x100000 0x180000 (by omega)
    (mmapEntries twice (0x9000 + 48) 0x9000)
  rw [pmmInitAt_eq, counted_iff h hok, twice_entries, hsurplus]
  omega

/-! ## Maps without wrapping regions -/

/-- A surplus of 0: no frame is cleared twice, and none behind the bitmap. -/
theorem surplus_eq_zero {es : List MmapEntry} :
    surplus es = 0 ↔ (released es).Nodup ∧ ∀ f ∈ released es, f < 262144 := by
  have hle := card_le_released es
  have hfilter := Finset.card_filter_le (released es).toFinset (· < 262144)
  have hset := List.toFinset_card_le (released es)
  unfold surplus
  constructor
  · intro h0
    have hall : (released es).toFinset.filter (· < 262144) = (released es).toFinset :=
      Finset.eq_of_subset_of_card_le (Finset.filter_subset _ _) (by omega)
    refine ⟨Multiset.coe_nodup.mp (Multiset.toFinset_card_eq_card_iff_nodup.mp ?_), fun f hf => ?_⟩
    · show (released es).toFinset.card = (released es).length
      omega
    · rw [← List.mem_toFinset, ← hall, Finset.mem_filter] at hf
      exact hf.2
  · intro ⟨hnodup, hlow⟩
    rw [Finset.filter_true_of_mem fun f hf => hlow f (List.mem_toFinset.mp hf),
      List.toFinset_card_of_nodup hnodup,
      Nat.sub_self]

theorem released_length {n : Nat} : ∀ {es : List MmapEntry}, (∀ e ∈ es, e.frames.length ≤ n) →
    (released es).length ≤ es.length * n
  | [], _ => Nat.zero_le _
  | e :: es, h => by
    have hrest := @released_length n es fun x hx => h x (List.mem_cons_of_mem _ hx)
    have hfirst := h e List.mem_cons_self
    unfold released at hrest ⊢
    rw [List.flatMap_cons, List.length_append, List.length_cons, Nat.succ_mul]
    omega

/-- **In a map of regions that do not wrap**, the count is exact when no usable frame lies in two of
them. -/
theorem surplus_sane {es : List MmapEntry} (hes : ∀ e ∈ es, e.addr + e.len + 4096 ≤ 2 ^ 64)
    (hlen : es.length < 2 ^ 32) :
    surplus es % 2 ^ 64 = 0 ↔ es.Pairwise fun e e' => ∀ f, Usable e f → ¬ Usable e' f := by
  have hlow : ∀ f ∈ released es, f < 262144 := by
    intro f hf
    obtain ⟨e, he, hin⟩ := List.mem_flatMap.mp hf
    have hhigh := ((mem_frames (hes e he)).mp hin).high
    omega
  have hnodup : ∀ e : MmapEntry, e.frames.Nodup := by
    intro e
    unfold MmapEntry.frames
    split
    · exact List.nodup_range'
    · exact List.nodup_nil
  have hone : ∀ e ∈ es, e.frames.length ≤ 262144 := by
    intro e he
    have hsub : e.frames ⊆ List.range 262144 := fun f hf =>
      List.mem_range.mpr (hlow f (List.mem_flatMap.mpr ⟨e, he, hf⟩))
    have hle := (List.subperm_of_subset (hnodup e) hsub).length_le
    rwa [List.length_range] at hle
  have hsmall := released_length hone
  have hzero : surplus es % 2 ^ 64 = 0 ↔ surplus es = 0 := by
    have hle : surplus es ≤ (released es).length := Nat.sub_le _ _
    rw [Nat.mod_eq_of_lt (by omega)]
  rw [hzero, surplus_eq_zero, and_iff_left hlow, released, List.nodup_flatMap,
    and_iff_right fun e _ => hnodup e]
  constructor
  · intro h
    refine h.imp_of_mem fun {a b} ha hb hdisj f hf hf' => ?_
    exact hdisj ((mem_frames (hes a ha)).mpr hf) ((mem_frames (hes b hb)).mpr hf')
  · intro h
    refine h.imp_of_mem fun {a b} ha hb hno f hf hf' => ?_
    exact hno f ((mem_frames (hes a ha)).mp hf) ((mem_frames (hes b hb)).mp hf')

end InaneOS.Mem
