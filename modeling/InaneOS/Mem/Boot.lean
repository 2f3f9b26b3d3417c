import InaneOS.Mem.Image
import InaneOS.Mem.Memmap

/-!
# The state at start-up

`boot.S` fills six frames of the kernel image with page tables that map the first
4 GB to themselves in 2 MB pages for the kernel alone; `pmm_init` and `exec_init_mods`
mark the frames of the kernel and of the modules used. `Flat` is what stays of the
tables of `boot.S` whatever is loaded later: a page without a page table is still
mapped to itself.
-/

namespace InaneOS.Mem

open InaneOS.Lib

/-! ## Page tables -/

/-- Physical memory behind `_start`: `pml4`, `pdpt` and the four frames of `pd` lie one after
the other from frame `base` on; `ram` is the rest. -/
def bootMem (base : Nat) (ram : Nat → Nat → Nat) : Nat → Nat → Nat := fun f i =>
  if f = base then (if i = 0 then openEntry (base + 1) else 0)
  else if f = base + 1 then (if i < 4 then openEntry (base + 2 + i) else 0)
  else if base + 2 ≤ f ∧ f < base + 6 then ((f - (base + 2)) * 512 + i) * 2 ^ 21 + 0x83
  else ram f i

/-! ## Modules -/

/-- An entry of the boot loader's module list; no command line is an empty one. -/
structure MbMod where
  modStart : Nat
  modEnd : Nat
  cmdline : List Nat

def maxMods : Nat := 8
def modNameLen : Nat := 32

/-- The loop of `exec_init_mods`. -/
def execInitMods : List MbMod → List Module → Pmm → List Module × Pmm
  | [], mods, p => (mods, p)
  | b :: bs, mods, p =>
    if mods.length ≥ maxMods then (mods, p)
    else if b.modEnd ≤ b.modStart ∨ b.modEnd > 0x40000000 then execInitMods bs mods p
    else if b.cmdline = [] then execInitMods bs mods p
    else
      execInitMods bs (mods ++ [⟨b.modStart, b.modEnd, b.cmdline.take (modNameLen - 1)⟩])
        (pmmReserve b.modStart b.modEnd p)

/-- What differs from one start to another. -/
structure Boot where
  /-- The first frame of the boot page tables. -/
  base : Nat
  kstart : Nat
  kend : Nat
  ram : Nat → Nat → Nat
  mmap : List MmapEntry
  modules : List MbMod
  /-- The tables lie in the kernel image, which lies below 1 GB. -/
  inside : 1 ≤ kstart / 4096 ∧ kstart ≤ base * 4096 ∧ (base + 6) * 4096 ≤ kend ∧ kend ≤ 0x40000000
  /-- No region of the memory map reaches the end of the address space. -/
  regions : ∀ e ∈ mmap, e.addr + e.len + 4096 ≤ 2 ^ 64
  /-- The boot loader puts no module over the kernel. -/
  apart : ∀ x ∈ modules, x.modEnd ≤ kstart ∨ kend ≤ x.modStart

namespace Boot

/-- The registered modules. -/
def mods (b : Boot) : List Module := (execInitMods b.modules [] (pmmInit b.mmap b.kstart b.kend)).1

/-- The machine when the first program is about to be entered. -/
def mach (b : Boot) : Mach where
  mem := bootMem b.base b.ram
  pmm := (execInitMods b.modules [] (pmmInit b.mmap b.kstart b.kend)).2
  pml4 := b.base
  starved := false
  strayed := false

/-- A frame of the kernel image. -/
def Kernel (b : Boot) (f : Nat) : Prop := b.kstart / 4096 ≤ f ∧ f < (b.kend + 4095) / 4096

end Boot

/-- A frame of a registered module. -/
def Boot.Registered (b : Boot) (f : Nat) : Prop :=
  ∃ mod ∈ b.mods, InImage mod.start (mod.fin - mod.start) f

/-! ## The tree of `boot.S` -/

section Tree

variable {base : Nat} {ram : Nat → Nat → Nat}

theorem bootMem_pml4 : bootMem base ram base 0 = openEntry (base + 1) := by
  rw [bootMem, if_pos rfl, if_pos rfl]

theorem bootMem_pml4_other {i : Nat} (hi : i ≠ 0) : bootMem base ram base i = 0 := by
  rw [bootMem, if_pos rfl, if_neg hi]

theorem bootMem_pdpt {i : Nat} (hi : i < 4) :
    bootMem base ram (base + 1) i = openEntry (base + 2 + i) := by
  rw [bootMem, if_neg (by omega), if_pos rfl, if_pos hi]

theorem bootMem_pdpt_other {i : Nat} (hi : ¬ i < 4) : bootMem base ram (base + 1) i = 0 := by
  rw [bootMem, if_neg (by omega), if_pos rfl, if_neg hi]

theorem bootMem_pd {i j : Nat} (hi : i < 4) :
    bootMem base ram (base + 2 + i) j = (i * 512 + j) * 2 ^ 21 + 0x83 := by
  rw [bootMem, if_neg (by omega), if_neg (by omega), if_pos (by omega),
    show base + 2 + i - (base + 2) = i by omega]

theorem bigEntry_present (n : Nat) : present (n * 2 ^ 21 + 0x83) := by
  unfold present
  omega

theorem bigEntry_large (n : Nat) : large (n * 2 ^ 21 + 0x83) := by
  unfold large
  omega

/-- The tables are `pml4`, `pdpt` and the four frames of `pd`, and no others. -/
theorem boot_node {p : List Nat} {f : Nat} (h : tables.node (bootMem base ram) base p = some f) :
    (p = [] ∧ f = base) ∨ (p = [0] ∧ f = base + 1) ∨ ∃ i < 4, p = [i, 0] ∧ f = base + 2 + i := by
  induction p generalizing f with
  | nil => exact Or.inl ⟨rfl, (Option.some.inj h).symm⟩
  | cons i q ih =>
    obtain ⟨t, ht, -, hnext⟩ := Radix.node_above h
    rcases ih ht with ⟨rfl, rfl⟩ | ⟨rfl, rfl⟩ | ⟨j, hj, rfl, rfl⟩
    · by_cases hi : i = 0
      · rw [hi, bootMem_pml4, next_openEntry (by simp)] at hnext
        exact Or.inr (Or.inl ⟨by rw [hi], (Option.some.inj hnext).symm⟩)
      · rw [bootMem_pml4_other hi, next_of_not_present zero_not_present] at hnext
        exact absurd hnext (by simp)
    · by_cases hi : i < 4
      · rw [bootMem_pdpt hi, next_openEntry (by simp)] at hnext
        exact Or.inr (Or.inr ⟨i, hi, rfl, (Option.some.inj hnext).symm⟩)
      · rw [bootMem_pdpt_other hi, next_of_not_present zero_not_present] at hnext
        exact absurd hnext (by simp)
    · -- the entries of `pd` are 2 MB pages
      rw [bootMem_pd hj, List.length_cons, List.length_singleton,
        next_of_large (bigEntry_large _)] at hnext
      exact absurd hnext (by simp)

theorem boot_tree : tables.Tree (bootMem base ram) base := by
  intro p q f hp hq
  rcases boot_node hp with ⟨rfl, h1⟩ | ⟨rfl, h1⟩ | ⟨i, hi, rfl, h1⟩ <;>
    rcases boot_node hq with ⟨rfl, h2⟩ | ⟨rfl, h2⟩ | ⟨j, hj, rfl, h2⟩
  all_goals first
    | rfl
    | omega
    | rw [show i = j by omega]

theorem boot_pdpt : tables.node (bootMem base ram) base [0] = some (base + 1) := by
  have hcons := Radix.node_cons (show 0 < tables.width from by decide)
    (show tables.node (bootMem base ram) base [] = some base from rfl)
  rw [hcons, bootMem_pml4]
  exact next_openEntry (by simp) _

theorem boot_pd {i : Nat} (hi : i < 4) :
    tables.node (bootMem base ram) base [i, 0] = some (base + 2 + i) := by
  rw [Radix.node_cons (show i < 512 by omega) boot_pdpt, bootMem_pdpt hi]
  exact next_openEntry (by simp) _

end Tree

/-! ## What the boot tables map -/

/-- A page without a page table is mapped to itself, for the kernel alone. -/
def Flat (m : Mach) : Prop := ∀ v < 2 ^ 20, ¬ Small m v → pte m v = v * 4096 + 3

theorem Flat.dense {m : Mach} (h : Flat m) : AllDense m := by
  intro v hv
  by_cases hs : Small m v
  · exact Or.inl hs
  · right
    rw [h v (by omega) hs]
    unfold present
    omega

section Booted

variable (b : Boot)

theorem boot_not_small (v : Nat) : ¬ Small b.mach v := by
  intro ⟨t, ht⟩
  have hlen := path_length v 3
  rcases boot_node ht with ⟨hp, -⟩ | ⟨hp, -⟩ | ⟨i, -, hp, -⟩
  all_goals
    rw [hp] at hlen
    simp at hlen

theorem boot_flat : Flat b.mach := by
  intro v hv _
  have h3 : b.mach.node (path v 3) = none := by
    cases hn : b.mach.node (path v 3) with
    | none => rfl
    | some t => exact absurd ⟨t, hn⟩ (boot_not_small b v)
  have hpath : path v 2 = [v / 512 / 512, 0] := by
    simp only [path, pageIdx, List.cons.injEq, and_true]
    omega
  have h2 : b.mach.node (path v 2) = some (b.base + 2 + v / 512 / 512) := by
    rw [hpath]
    exact boot_pd (by omega)
  have hentry : b.mach.mem (b.base + 2 + v / 512 / 512) (pageIdx v 2) =
    v / 512 * 2 ^ 21 + 0x83 := by
    have hpd := @bootMem_pd b.base b.ram (v / 512 / 512) (pageIdx v 2) (by omega)
    rw [show v / 512 / 512 * 512 + pageIdx v 2 = v / 512 by unfold pageIdx; omega] at hpd
    exact hpd
  rw [pte_of_directory h3 h2, hentry, if_pos (bigEntry_present _)]
  unfold splitEntry
  omega

/-- Above 4 GB nothing is mapped. -/
theorem boot_high {v : Nat} (hv : 2 ^ 20 ≤ v) (hv' : v < 2 ^ 36) : pte b.mach v = 0 := by
  refine pte_of_none ?_
  cases hn : b.mach.node (path v 2) with
  | none => rfl
  | some t =>
    have hlen := path_length v 2
    rcases boot_node hn with ⟨hp, -⟩ | ⟨hp, -⟩ | ⟨i, hi, hp, -⟩
    · rw [hp] at hlen
      simp at hlen
    · rw [hp] at hlen
      simp at hlen
    · simp only [path, pageIdx, List.cons.injEq, and_true] at hp
      omega

/-- All entries that lead to a table are open. -/
theorem boot_upper {bit : Nat → Prop} (hbit : ∀ f, bit (openEntry f)) (v : Nat) :
    Upper bit b.mach v := by
  intro d hd s hs hn
  have hlen := path_length v d
  have hnext : ∃ t, b.mach.node (path v (d + 1)) = some t := Option.ne_none_iff_exists'.mp hn
  obtain ⟨t, ht⟩ := hnext
  rcases boot_node ht with ⟨hp, -⟩ | ⟨hp, -⟩ | ⟨i, hi, hp, -⟩
  · exact absurd hp (by simp [path])
  · -- the entry of `pml4`
    obtain ⟨hidx, htop⟩ := List.cons.inj hp
    rw [htop] at hs
    have hbase : b.base = s := Option.some.inj hs
    have hentry : b.mach.mem b.base 0 = openEntry (b.base + 1) := bootMem_pml4
    rw [← hbase, hidx, hentry]
    exact hbit _
  · -- an entry of `pdpt`
    obtain ⟨hidx, htop⟩ := List.cons.inj hp
    rw [htop] at hs
    have hpdpt : b.base + 1 = s := Option.some.inj (boot_pdpt.symm.trans hs)
    have hentry : b.mach.mem (b.base + 1) i = openEntry (b.base + 2 + i) := bootMem_pdpt hi
    rw [← hpdpt, hidx, hentry]
    exact hbit _

/-- No page is open to user mode. -/
theorem boot_closed {v : Nat} (hv : v < 2 ^ 36) : ¬ UserPage b.mach v := by
  intro hu
  obtain ⟨hp, hbit, -⟩ := hu
  by_cases hlow : v < 2 ^ 20
  · rw [boot_flat b v hlow (boot_not_small b v)] at hbit
    unfold user at hbit
    omega
  · rw [boot_high b (by omega) hv] at hp
    exact zero_not_present hp

theorem boot_low : Low b.mach := ⟨_, boot_pdpt⟩

end Booted

/-! ## The allocator at start-up -/

theorem releaseLoop_ok : ∀ (n f : Nat) {p : Pmm}, PmmOk p → PmmOk (releaseLoop n f p)
  | 0, _, _, h => h
  | n + 1, f, _, h => releaseLoop_ok n (f + 1) ⟨h.total, h.cursor⟩

theorem initEntry_ok (e : MmapEntry) {p : Pmm} (h : PmmOk p) : PmmOk (initEntry e p) := by
  unfold initEntry
  split
  · exact releaseLoop_ok _ _ h
  · exact h

/-- Nothing below 1 MB is made free. -/
theorem initEntry_null {e : MmapEntry} (he : e.addr + e.len + 4096 ≤ 2 ^ 64) {p : Pmm}
    (h : p.used 0 = true) : (initEntry e p).used 0 = true := by
  by_contra hfree
  rcases (initEntry_used e p 0).mp (Bool.eq_false_iff.mpr hfree) with hin | hold
  · have hlow := ((mem_frames he).mp hin).low
    omega
  · rw [h] at hold
    exact absurd hold (by simp)

theorem setUsed_ok (f : Nat) {p : Pmm} (h : PmmOk p) : PmmOk (setUsed f p) := by
  unfold setUsed
  split
  · exact h
  · exact ⟨h.total, h.cursor⟩

theorem setUsedLoop_ok : ∀ (n f : Nat) {p : Pmm}, PmmOk p → PmmOk (setUsedLoop n f p)
  | 0, _, _, h => h
  | n + 1, f, _, h => setUsedLoop_ok n (f + 1) (setUsed_ok f h)

theorem foldl_initEntry : ∀ {es : List MmapEntry} {p : Pmm},
    (∀ e ∈ es, e.addr + e.len + 4096 ≤ 2 ^ 64) → PmmOk p → p.used 0 = true →
    PmmOk (es.foldl (fun p e => initEntry e p) p) ∧
      (es.foldl (fun p e => initEntry e p) p).used 0 = true
  | [], _, _, h, h0 => ⟨h, h0⟩
  | e :: es, p, hes, h, h0 =>
    @foldl_initEntry es (initEntry e p) (fun x hx => hes x (List.mem_cons_of_mem _ hx))
      (initEntry_ok e h) (initEntry_null (hes e List.mem_cons_self) h0)

/-- **`pmm_init`**: frame 0 and the kernel are in use. -/
theorem pmmInit_spec {es : List MmapEntry} (hes : ∀ e ∈ es, e.addr + e.len + 4096 ≤ 2 ^ 64)
    {kstart kend : Nat} (hk : kend ≤ 0x40000000) :
    PmmOk (pmmInit es kstart kend) ∧ (pmmInit es kstart kend).used 0 = true ∧
      ∀ f, kstart / 4096 ≤ f → f < (kend + 4095) / 4096 →
        (pmmInit es kstart kend).used f = true := by
  obtain ⟨hok, hnull⟩ := @foldl_initEntry es fullPmm hes fullPmm_inv.ok (fullPmm_used 0)
  refine ⟨setUsedLoop_ok _ _ hok, (setUsedLoop_used _ _ _ _).mpr (Or.inr hnull), fun f h0 h1 => ?_⟩
  refine (setUsedLoop_used _ _ _ _).mpr (Or.inl ?_)
  unfold frameSize
  omega

theorem pmmReserve_ok (start fin : Nat) {p : Pmm} (h : PmmOk p) :
    PmmOk (pmmReserve start fin p) := by
  unfold pmmReserve
  dsimp only
  split
  · exact h
  · exact setUsedLoop_ok _ _ h

theorem pmmReserve_keeps (start fin : Nat) {p : Pmm} {f : Nat} (h : p.used f = true) :
    (pmmReserve start fin p).used f = true := by
  unfold pmmReserve
  dsimp only
  split
  · exact h
  · exact (setUsedLoop_used _ _ _ _).mpr (Or.inr h)

/-- `pmm_reserve` marks every frame of the image. -/
theorem pmmReserve_image {start fin : Nat} (hfin : fin ≤ 0x40000000) {p : Pmm}
    (h : PmmOk p) {f : Nat}
    (hf : InImage start (fin - start) f) : (pmmReserve start fin p).used f = true := by
  obtain ⟨k, hk, rfl⟩ := hf
  have htotal := h.total
  unfold pmmReserve frameSize
  dsimp only
  rw [if_neg (by omega), if_neg (by omega)]
  exact (setUsedLoop_used _ _ _ _).mpr (Or.inl (by omega))

theorem pmmReserve_outside {start fin f : Nat} {p : Pmm} (hf : p.used f = false)
    (hout : f < start / 4096 ∨ (fin + 4095) % 2 ^ 64 / 4096 ≤ f) :
    (pmmReserve start fin p).used f = false := by
  rw [← Bool.not_eq_true] at hf ⊢
  unfold pmmReserve frameSize
  dsimp only
  split
  · exact hf
  · intro hu
    rcases (setUsedLoop_used _ _ _ _).mp hu with hin | hold
    · split at hin <;> omega
    · exact hf hold

/-- A frame outside every module is not reserved. -/
theorem execInitMods_outside {f : Nat} : ∀ {bs : List MbMod} {mods : List Module} {p : Pmm},
    p.used f = false →
    (∀ x ∈ bs, f < x.modStart / 4096 ∨ (x.modEnd + 4095) % 2 ^ 64 / 4096 ≤ f) →
    (execInitMods bs mods p).2.used f = false
  | [], _, _, hf, _ => hf
  | x :: bs, mods, p, hf, hout => by
    have hrest := fun y hy => hout y (List.mem_cons_of_mem _ hy)
    unfold execInitMods
    split
    · exact hf
    · split
      · exact execInitMods_outside hf hrest
      · split
        · exact execInitMods_outside hf hrest
        · exact execInitMods_outside (pmmReserve_outside hf (hout x List.mem_cons_self)) hrest

/-- What `exec_init_mods` makes sure of for every registered module. -/
structure Registration (bs : List MbMod) (p : Pmm) (mod : Module) : Prop where
  listed : ∃ x ∈ bs, mod.start = x.modStart ∧ mod.fin = x.modEnd
  bound : mod.start < mod.fin ∧ mod.fin ≤ 0x40000000
  name : mod.name.length ≤ 31
  used : ∀ f, InImage mod.start (mod.fin - mod.start) f → p.used f = true

theorem Registration.mono {bs bs' : List MbMod} {p p' : Pmm} {mod : Module}
    (h : Registration bs p mod)
    (hbs : ∀ x ∈ bs, x ∈ bs') (hp : ∀ f, p.used f = true → p'.used f = true) :
    Registration bs' p' mod := by
  obtain ⟨x, hx, hmod⟩ := h.listed
  exact ⟨⟨x, hbs x hx, hmod⟩, h.bound, h.name, fun f hf => hp f (h.used f hf)⟩

/-- **`exec_init_mods`.** -/
theorem execInitMods_spec {all : List MbMod} : ∀ {bs : List MbMod} {mods : List Module} {p : Pmm},
    (∀ x ∈ bs, x ∈ all) → PmmOk p → (∀ mod ∈ mods, Registration all p mod) →
    PmmOk (execInitMods bs mods p).2 ∧
      (∀ f, p.used f = true → (execInitMods bs mods p).2.used f = true) ∧
      ∀ mod ∈ (execInitMods bs mods p).1, Registration all (execInitMods bs mods p).2 mod
  | [], _, _, _, hok, hmods => ⟨hok, fun _ hf => hf, hmods⟩
  | x :: bs, mods, p, hall, hok, hmods => by
    have hrest : ∀ y ∈ bs, y ∈ all := fun y hy => hall y (List.mem_cons_of_mem _ hy)
    unfold execInitMods
    split
    · exact ⟨hok, fun _ hf => hf, hmods⟩
    · split
      · exact execInitMods_spec hrest hok hmods
      · next hbound =>
        split
        · exact execInitMods_spec hrest hok hmods
        · have hkeep : ∀ f, p.used f = true → (pmmReserve x.modStart x.modEnd p).used f = true :=
            fun f hf => pmmReserve_keeps _ _ hf
          have hnew : Registration all (pmmReserve x.modStart x.modEnd p)
              ⟨x.modStart, x.modEnd, x.cmdline.take (modNameLen - 1)⟩ := by
            refine ⟨⟨x, hall x List.mem_cons_self, rfl, rfl⟩, ?_, ?_, fun f hf => ?_⟩
            · show x.modStart < x.modEnd ∧ x.modEnd ≤ 0x40000000
              omega
            · exact List.length_take_le _ _
            · exact pmmReserve_image (by omega) hok hf
          obtain ⟨hok', hkeep', hmods'⟩ := @execInitMods_spec all bs
            (mods ++ [⟨x.modStart, x.modEnd, x.cmdline.take (modNameLen - 1)⟩]) _ hrest
            (pmmReserve_ok x.modStart x.modEnd hok) (by
              intro mod hmod
              rcases List.mem_append.mp hmod with hold | hone
              · exact (hmods mod hold).mono (fun _ hy => hy) hkeep
              · rw [List.mem_singleton.mp hone]
                exact hnew)
          exact ⟨hok', fun f hf => hkeep' f (hkeep f hf), hmods'⟩


namespace Boot

variable (b : Boot)

theorem pmm_spec : PmmOk b.mach.pmm ∧ b.mach.pmm.used 0 = true ∧
    (∀ f, b.Kernel f → b.mach.pmm.used f = true) ∧
    ∀ mod ∈ b.mods, Registration b.modules b.mach.pmm mod := by
  obtain ⟨hok, hnull, hkernel⟩ := @pmmInit_spec b.mmap b.regions b.kstart b.kend b.inside.2.2.2
  obtain ⟨hok', hkeep, hmods⟩ := @execInitMods_spec b.modules b.modules [] _ (fun _ hx => hx) hok
    (fun mod hmod => absurd hmod (by simp))
  exact ⟨hok', hkeep 0 hnull, fun f hf => hkeep f (hkernel f hf.1 hf.2), hmods⟩

/-- The boot tables are frames of the kernel. -/
theorem table_kernel {f : Nat} (h : IsTable b.mach f) : b.base ≤ f ∧ f < b.base + 6 := by
  obtain ⟨p, hp⟩ := h
  rcases boot_node hp with ⟨-, rfl⟩ | ⟨-, rfl⟩ | ⟨i, hi, -, rfl⟩
  · omega
  · omega
  · omega

theorem kernel_of_table {f : Nat} (h : IsTable b.mach f) : b.Kernel f := by
  have htable := b.table_kernel h
  have hinside := b.inside
  unfold Kernel
  omega

theorem wf : Wf b.mach where
  tree := boot_tree
  used f hf _ := b.pmm_spec.2.2.1 f (b.kernel_of_table hf)
  nonnull f hf := by
    have hkernel := b.kernel_of_table hf
    have hinside := b.inside
    unfold Kernel at hkernel
    omega
  pmm := b.pmm_spec.1

/-- No module lies over the boot tables. -/
theorem module_not_table {f : Nat} (h : b.Registered f) : ¬ IsTable b.mach f := by
  intro htable
  have hbase := b.table_kernel htable
  have hinside := b.inside
  obtain ⟨mod, hmod, k, hk, rfl⟩ := h
  obtain ⟨x, hx, hstart, hfin⟩ := (b.pmm_spec.2.2.2 mod hmod).listed
  rcases b.apart x hx with hbelow | habove
  · omega
  · omega

theorem registered_used {f : Nat} (h : b.Registered f) : b.mach.pmm.used f = true := by
  obtain ⟨mod, hmod, hf⟩ := h
  exact (b.pmm_spec.2.2.2 mod hmod).used f hf

theorem registered_lt {f : Nat} (h : b.Registered f) : f < 262144 := by
  obtain ⟨mod, hmod, k, hk, rfl⟩ := h
  have hbound := (b.pmm_spec.2.2.2 mod hmod).bound
  omega

end Boot

end InaneOS.Mem
