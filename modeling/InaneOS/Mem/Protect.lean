import InaneOS.Mem.Direct

/-!
# Only the program's own pages are open to it

All upper table entries are open to user mode, so what a program can reach is decided by
the 4 KB entries alone. `loadProgram_protects` says that behind `enter_program` these are
open for the pages of the image's segments and for the stack, and for nothing else, in
any state whose page tables are in order. The header table has to lie in the image: when
the sum that is compared with the image's length wraps, headers are read from somewhere
else (`headers_outside`).
-/

namespace InaneOS.Mem

open InaneOS.Lib

/-- A state in which `enter_program` may be called for the image at `img`: the tables are a tree in
frames that are not free, the image is reserved, no 4 KB entry of the user range leads to either,
and only pages of the user range with 4 KB entries are open to user mode. -/
structure Guarded (m : Mach) (img len : Nat) : Prop where
  wf : Wf m
  low : Low m
  fits : img + len ≤ 0x40000000
  image : ∀ f, InImage img len f → m.pmm.used f = true ∧ ¬ IsTable m f
  targets : ∀ f, IsTable m f ∨ InImage img len f → ¬ Given m f
  users : ∀ v < 2 ^ 36, UserPage m v → rangeStart ≤ v ∧ v < rangeEnd ∧ Small m v

/-- `p` is a `PT_LOAD` header of the image. -/
def Segment (m : Mach) (img len : Nat) (p : Phdr) : Prop :=
  ∃ j < (ehdrAt m img).phnum, (ehdrAt m img).phoff + j * (ehdrAt m img).phentsize + phdrSize ≤ len ∧
    hdr m img j = p ∧ p.type = ptLoad

/-- The segment has a byte in page `v`. -/
def Phdr.Overlaps (p : Phdr) (v : Nat) : Prop :=
  0 < p.memsz ∧ p.vaddr < (v + 1) * 4096 ∧ v * 4096 < p.vaddr + p.memsz

def StackPage (v : Nat) : Prop := v = ustackBase / 4096 ∨ v = ustackBase / 4096 + 1

/-- In `m'`, only the pages of the image's segments and the stack are open to user mode, and of
these only the stack and the pages of a segment with `PF_W` are writable. -/
def OwnPages (m : Mach) (img len : Nat) (m' : Mach) : Prop :=
  ∀ v < 2 ^ 36, UserPage m' v → userMin ≤ v * 4096 ∧ v * 4096 < ustackTop ∧
    (StackPage v ∨ ∃ p, Segment m img len p ∧ p.Overlaps v) ∧
    (UserWritable m' v → StackPage v ∨ ∃ p, Segment m img len p ∧ p.Overlaps v ∧
      p.flags / 2 % 2 = 1)

section

variable {m : Mach} {img len : Nat}

theorem writable_flags (p : Phdr) : writable (5 + p.writeFlag) ↔ p.flags / 2 % 2 = 1 := by
  unfold writable Phdr.writeFlag
  split <;> omega

/-- What the plan says of a page: it is a page of the stack or of a segment. -/
theorem page_of_plan (hwrap : NoWrap m img len) {x : Nat × Nat} (hx : x ∈ programPlan m img len) :
    StackPage x.1 ∨ ∃ p, Segment m img len p ∧ p.Overlaps x.1 ∧ x.2 = 5 + p.writeFlag := by
  rcases List.mem_append.mp hx with h | h
  · obtain ⟨hlen, hacc, j, hj, hs, hr, hwant⟩ := mem_elfPlan h
    obtain ⟨⟨hlo, hhi⟩, hflags⟩ := mem_wanted.mp hwant
    have hsane := hwrap.segments hlen hacc j hj hs hr
    obtain ⟨-, -, -, hfin⟩ := bounds_of_not_refused hsane hr
    unfold Phdr.skipped at hs
    rw [not_or, not_not] at hs
    refine Or.inr ⟨hdr m img j, ⟨j, hj, ?_, rfl, hs.1⟩, ⟨by omega, by omega, ?_⟩, hflags⟩
    · exact Ehdr.table_inside hacc (hwrap.headers hlen hacc) hj
    · unfold Phdr.pageCount Phdr.first at hhi
      rw [hfin] at hhi
      omega
  · split at h
    · rw [stackWant, List.mem_cons, List.mem_singleton] at h
      rcases h with rfl | rfl
      · exact Or.inl (Or.inl rfl)
      · exact Or.inl (Or.inr rfl)
    · exact absurd h (by simp)

/-- Behind the clearing no page is open to user mode. -/
theorem Guarded.closed {m₁ : Mach} (g : Guarded m img len) (hc : Cleared rangeStart rangeEnd m m₁)
    {v : Nat}
    (hv : v < 2 ^ 36) : ¬ UserPage m₁ v := by
  intro hu
  obtain ⟨hp, hbit, hup⟩ := hu
  by_cases hin : rangeStart ≤ v ∧ v < rangeEnd ∧ Mapped4K m v
  · rw [hc.cleared v hin.1 hin.2.1 hin.2.2] at hp
    exact zero_not_present hp
  · rw [hc.kept v hv hin] at hp hbit
    obtain ⟨hlo, hhi, hsmall⟩ := g.users v hv ⟨hp, hbit, (hc.upper user v).mp hup⟩
    exact hin ⟨hlo, hhi, hsmall, hp⟩

theorem Guarded.noWrap (hsums : ∀ p, Segment m img len p → p.off + p.filesz < 2 ^ 64 ∧
    p.vaddr + p.memsz < 2 ^ 64)
    (hhead : ehdrSize ≤ len → (ehdrAt m img).accepted len →
      (ehdrAt m img).phoff + (ehdrAt m img).phnum * (ehdrAt m img).phentsize < 2 ^ 64) :
    NoWrap m img len := by
  refine ⟨hhead, fun hlen hacc j hj hs _ => ?_⟩
  unfold Phdr.skipped at hs
  rw [not_or, not_not] at hs
  exact (hsums _ ⟨j, hj, Ehdr.table_inside hacc (hhead hlen hacc) hj, rfl, hs.1⟩).2

/-- **Only the program's own pages** are open to it behind `vmm_unmap_range`, `elf_load` and the
stack mapping, when the header table does not wrap out of the image. -/
theorem loadProgram_protects (g : Guarded m img len)
    (hsums : ∀ p, Segment m img len p → p.off + p.filesz < 2 ^ 64 ∧ p.vaddr + p.memsz < 2 ^ 64)
    (hst : (loadProgram img len m).2.starved = false)
    (hhead : ehdrSize ≤ len → (ehdrAt m img).accepted len →
      (ehdrAt m img).phoff + (ehdrAt m img).phnum * (ehdrAt m img).phentsize < 2 ^ 64) :
    OwnPages m img len (loadProgram img len m).2 := by
  obtain ⟨m₁, hm₁⟩ : ∃ m₁, vmmUnmapRange userMin ustackTop m = m₁ := ⟨_, rfl⟩
  have hc : Cleared rangeStart rangeEnd m m₁ := hm₁ ▸ vmmUnmapRange_cleared g.wf.tree
  have hw₁ : Wf m₁ := hc.wf g.wf fun f hf => g.targets f (Or.inl hf)
  have hsame : ∀ f, InImage img len f → m₁.mem f = m.mem f := fun f hf => hc.mem f (g.image f hf).2
  have hwrap := Guarded.noWrap hsums hhead
  have hfit : img + len < 2 ^ 64 := Nat.lt_of_le_of_lt g.fits (by decide)
  have him : ImageOk (fun _ => True) m₁ img len := by
    refine imageOk_of hw₁ hfit (fun f hf => ⟨?_, fun ht => ?_⟩) (fun _ _ => trivial)
      (hwrap.same hfit hsame) fun _ _ _ _ _ _ => Boot.in_true _ _
    · exact hc.still_used (g.image f hf).1 (g.targets f (Or.inr hf))
    · exact (g.image f hf).2 ((hc.isTable f).mp ht)
  obtain ⟨ms, l, sp, m', hload, ⟨q, hstop, -⟩, hpre, -⟩ :=
    loadProgram_load hm₁ hw₁ (hc.low g.low) him hst
  rw [programPlan_same hfit hsame hwrap] at hpre
  rw [hstop]
  -- the allocator decides nothing about the tables
  show OwnPages m img len m'
  intro v hv hu
  obtain ⟨hp, hbit, hup⟩ := hu
  by_cases hin : v ∈ pages ms
  · obtain ⟨x, hx, rfl, hpte⟩ := hload.pte_mapped hv hin
    have hxplan : (x.page, x.flags) ∈ programPlan m img len := hpre.subset (mem_made hx)
    have hrange := programPlan_range hwrap hxplan
    have hpage := page_of_plan hwrap hxplan
    dsimp only at hrange hpage
    refine ⟨?_, ?_, hpage.imp_right fun ⟨p, hseg, hover, _⟩ => ⟨p, hseg, hover⟩, fun hw => ?_⟩
    · unfold userMin
      omega
    · unfold ustackTop
      omega
    · refine hpage.imp_right fun ⟨p, hseg, hover, hflags⟩ => ⟨p, hseg, hover, ?_⟩
      have hwrite := hw.2.1
      rw [hpte, leafEntry_writable, hflags, writable_flags] at hwrite
      exact hwrite
  · rw [hload.pte_other hv hin] at hp hbit
    exact absurd ⟨hp, hbit, hload.upper user v hup⟩ (g.closed hc hv)

end

/-! ## From the state at start-up -/

theorem Boot.guarded (b : Boot) {img len : Nat} (hfit : img + len ≤ 0x40000000)
    (himage : ∀ f, InImage img len f → b.mach.pmm.used f = true ∧ ¬ IsTable b.mach f) :
    Guarded b.mach img len where
  wf := b.wf
  low := boot_low b
  fits := hfit
  image := himage
  targets f _ := by
    intro h
    obtain ⟨w, -, -, hw, -⟩ := h
    exact boot_not_small b w hw.1
  users v hv hu := absurd hu (boot_closed b hv)

/-- The first load, with memory enough, maps all it asks for. -/
theorem first_load (b : Boot) {img len : Nat} {m₁ : Mach}
    (hm₁ : vmmUnmapRange userMin ustackTop b.mach = m₁)
    (him : ImageOk (fun _ => True) m₁ img len) (hacc : (elfPlan m₁ img len).2 = true)
    (hlen : 2 * (elfPlan m₁ img len).1.length + 3 ≤ (stock b.mach).length) :
    Cleared rangeStart rangeEnd b.mach m₁ ∧ ∃ ms l,
      Load (fun _ => True) m₁ ms l [] (loadProgram img len b.mach).2 ∧
      made ms = programPlan m₁ img len := by
  have hc : Cleared rangeStart rangeEnd b.mach m₁ := hm₁ ▸ vmmUnmapRange_cleared b.wf.tree
  have hrun : b.Running m₁ := b.running_mach.cleared b.apart_mach hc
  have hnull : 0 ∉ supply m₁.pmm := by
    intro hin
    have hfree := ((mem_supply hrun.wf.pmm).mp hin).2
    rw [hrun.null] at hfree
    exact absurd hfree (by simp)
  have hserve : Serves (fun _ => True) (fun T L => (elfPlan m₁ img len).2 = true →
    StackServes (fun _ => True) False T L)
      (blocks m₁) (supply m₁.pmm) ((elfPlan m₁ img len).1.map Prod.fst) := by
    refine @serves_of_length _ _ 3 (fun T L _ hlong _ => ?_) _ _ _ (fun _ _ => trivial) ?_
    · match L, hlong with
      | s1 :: s2 :: t :: L, _ => exact ⟨trivial, trivial, Or.inr ⟨t, L, rfl, trivial⟩⟩
    · rw [List.length_map, hc.supply b.wf.pmm]
      exact hlen
  obtain ⟨ms, l, sp, hload, -, -, hsp, hdone, hfail⟩ := loadProgram_served hm₁ hrun.wf hrun.low
    hrun.flat.dense hnull hrun.starved him hserve
  rw [hsp not_false] at hload
  refine ⟨hc, ms, l, hload, (hdone ?_).1⟩
  by_contra hnone
  rcases hfail (by simpa using hnone) with hno | hshort
  · rw [hacc] at hno
    exact absurd hno (by simp)
  · rw [hc.supply b.wf.pmm] at hshort
    omega

/-- The frames of the image of `neighbours` are reserved and hold no table. -/
theorem neighbours_image : ∀ f, InImage program.start (program.fin - program.start) f →
    neighbours.mach.pmm.used f = true ∧ ¬ IsTable neighbours.mach f := by
  intro f hf
  have hreg : neighbours.Registered f := ⟨program, by rw [neighbours_mods]; simp, hf⟩
  exact ⟨neighbours.registered_used hreg, neighbours.module_not_table hreg⟩

/-- The state in which `elf_load` finds the program of `neighbours`. -/
theorem neighbours_cleared {m₁ : Mach}
    (hm₁ : vmmUnmapRange userMin ustackTop neighbours.mach = m₁) :
    Cleared rangeStart rangeEnd neighbours.mach m₁ ∧ neighbours.Running m₁ ∧
      (∀ f, InImage program.start (program.fin - program.start) f →
        m₁.mem f = neighbours.mach.mem f) ∧
      ImageOk (fun _ => True) m₁ program.start (program.fin - program.start) ∧
      elfPlan m₁ program.start (program.fin - program.start) = ([(0x400, 5)], true) := by
  have hfit : program.start + (program.fin - program.start) < 2 ^ 64 := by decide
  have hc : Cleared rangeStart rangeEnd neighbours.mach m₁ :=
    hm₁ ▸ vmmUnmapRange_cleared neighbours.wf.tree
  have hrun : neighbours.Running m₁ := neighbours.running_mach.cleared neighbours.apart_mach hc
  have hsame : ∀ f, InImage program.start (program.fin - program.start) f →
    m₁.mem f = neighbours.mach.mem f :=
    fun f hf => hc.mem f (neighbours_image f hf).2
  have hmodule : ∀ f, InImage program.start (program.fin - program.start) f →
    m₁.pmm.used f = true ∧ ¬ IsTable m₁ f :=
    fun f hf => hrun.module f ⟨program, by rw [neighbours_mods]; simp, hf⟩
  refine ⟨hc, hrun, hsame, ?_, (elfPlan_same hfit hsame neighbours_noWrap).trans neighbours_plan⟩
  exact imageOk_of hrun.wf hfit hmodule (fun _ _ => trivial) (neighbours_noWrap.same hfit hsame)
    fun _ _ _ _ _ _ => Boot.in_true _ _

/-- The program of `neighbours` has its page and the stack, and no more. -/
theorem loadProgram_protects_neighbours :
    OwnPages neighbours.mach program.start (program.fin - program.start)
      (loadProgram program.start (program.fin - program.start) neighbours.mach).2 := by
  have hone : (ehdrAt neighbours.mach program.start).phnum = 1 := by decide
  refine loadProgram_protects (neighbours.guarded (by decide) neighbours_image) ?_ ?_
    neighbours_noWrap.headers
  · intro p h
    obtain ⟨j, hj, -, rfl, -⟩ := h
    rw [show j = 0 by omega]
    decide
  · obtain ⟨m₁, hm₁⟩ : ∃ m₁, vmmUnmapRange userMin ustackTop neighbours.mach = m₁ := ⟨_, rfl⟩
    obtain ⟨-, hrun, -, him, hplan⟩ := neighbours_cleared hm₁
    obtain ⟨-, ms, l, hload, -⟩ := first_load neighbours hm₁ him (by rw [hplan])
      (by rw [hplan, ← neighbours_plan]; exact neighbours_stock)
    exact hload.starved.trans hrun.starved

/-! ## A header table outside the image -/

/-- The image at 0x190038 says that its header table lies 56 bytes before it. -/
def astray : Boot := sample 0x190
  ([0x0000000500000001, 0, 0x400000, 0, 0, 1, 0] ++
    [0x00010102464C457F, 0, 0x00000001003E0002, 0x400000, 2 ^ 64 - 56, 0, 0x0038004000000000, 1])
  [⟨0x190038, 0x190078, [105]⟩] (by decide)

def strayProgram : Module := ⟨0x190038, 0x190078, [105]⟩

theorem astray_plan : elfPlan astray.mach strayProgram.start
    (strayProgram.fin - strayProgram.start) = ([(0x400, 5)], true) := by
  decide

theorem user_openEntry (f : Nat) : user (openEntry f) := by
  unfold user openEntry
  omega

/-- **A page of no segment is open**: the length check adds up to 0 and the header is read from
before the image. -/
theorem headers_outside :
    Guarded astray.mach strayProgram.start (strayProgram.fin - strayProgram.start) ∧
    (∀ p, Segment astray.mach strayProgram.start (strayProgram.fin - strayProgram.start) p →
      p.off + p.filesz < 2 ^ 64 ∧ p.vaddr + p.memsz < 2 ^ 64) ∧
    (loadProgram strayProgram.start (strayProgram.fin - strayProgram.start) astray.mach).2.starved =
      false ∧
    ¬ OwnPages astray.mach strayProgram.start (strayProgram.fin - strayProgram.start)
      (loadProgram strayProgram.start (strayProgram.fin - strayProgram.start) astray.mach).2 := by
  have hreg : ∀ f, InImage strayProgram.start (strayProgram.fin - strayProgram.start) f →
    astray.Registered f :=
    fun f hf => ⟨strayProgram, List.mem_singleton.mpr rfl, hf⟩
  have hfit : strayProgram.start + (strayProgram.fin - strayProgram.start) ≤ 0x40000000 := by decide
  have hphoff : (ehdrAt astray.mach strayProgram.start).phoff = 2 ^ 64 - 56 := by decide
  have hnone : ∀ p, ¬ Segment astray.mach strayProgram.start (strayProgram.fin - strayProgram.start)
    p := by
    intro p h
    obtain ⟨j, -, hend, -, -⟩ := h
    rw [hphoff] at hend
    have hlen : strayProgram.fin - strayProgram.start = 64 := rfl
    omega
  obtain ⟨m₁, hm₁⟩ : ∃ m₁, vmmUnmapRange userMin ustackTop astray.mach = m₁ := ⟨_, rfl⟩
  have hc : Cleared rangeStart rangeEnd astray.mach m₁ := hm₁ ▸ vmmUnmapRange_cleared astray.wf.tree
  have hrun : astray.Running m₁ := astray.running_mach.cleared astray.apart_mach hc
  -- the header lies in the frame of the image, and is read as it was
  have hframe : astray.Registered 0x190 := hreg 0x190 ⟨0, by decide, rfl⟩
  have he : ehdrAt m₁ strayProgram.start = ehdrAt astray.mach strayProgram.start :=
    ehdrAt_same (Nat.lt_of_le_of_lt hfit (by decide))
      (fun f hf => hc.mem f (astray.module_not_table (hreg f hf))) (by decide)
  have hone : (ehdrAt astray.mach strayProgram.start).phnum = 1 := by decide
  have haddr : hdrAddr strayProgram.start (ehdrAt astray.mach strayProgram.start) 0 =
    0x190000 := by decide
  have hheader : ∀ {m' m'' : Mach}, m'.mem 0x190 = m''.mem 0x190 →
    phdrAt m' 0x190000 = phdrAt m'' 0x190000 := by
    intro m' m'' hmem
    refine phdrAt_eq (by decide) fun k hk => ?_
    rw [show (0x190000 + k) / 4096 = 0x190 by omega]
    exact hmem
  have hsame : phdrAt m₁ 0x190000 = phdrAt astray.mach 0x190000 :=
    hheader (hc.mem 0x190 (astray.module_not_table hframe))
  have hplan : elfPlan m₁ strayProgram.start (strayProgram.fin - strayProgram.start) =
    ([(0x400, 5)], true) := by
    rw [← astray_plan]
    refine elfPlan_congr (fun _ => he) fun _ j hj => ?_
    rw [show j = 0 by omega, haddr]
    exact hsame
  have him : ImageOk (fun _ => True) m₁ strayProgram.start
    (strayProgram.fin - strayProgram.start) := by
    refine ⟨fun _ => ⟨by decide, fun _ _ => trivial⟩, fun _ _ j hj => ?_, fun _ _ j hj _ _ => ?_⟩
    · rw [he] at hj ⊢
      rw [show j = 0 by omega, haddr]
      refine ⟨fun ms l m hload => hheader ?_, by decide, fun _ _ => trivial⟩
      exact hload.keeps hrun.wf (hrun.module _ hframe).1 (hrun.module _ hframe).2
    · rw [he] at hj ⊢
      rw [show j = 0 by omega, haddr, hsame]
      exact ⟨by unfold Phdr.Sane; decide, Boot.in_true _ _⟩
  have hlong : 32 ≤ (stock astray.mach).length := sample_length (by decide)
  obtain ⟨-, ms, l, hload, hmade⟩ := first_load astray hm₁ him (by rw [hplan])
    (by rw [hplan, List.length_singleton]; omega)
  refine ⟨astray.guarded hfit fun f hf => ⟨astray.registered_used (hreg f hf),
    astray.module_not_table (hreg f hf)⟩,
    fun p hp => absurd hp (hnone p), hload.starved.trans hrun.starved, fun hown => ?_⟩
  have hwant : made ms = [(0x400, 5), (0x40000, 7), (0x40001, 7)] := by
    rw [hmade, programPlan, hplan]
    rfl
  have hin : 0x400 ∈ pages ms := by
    rw [← List.mem_reverse, ← made_pages, hwant]
    simp
  obtain ⟨x, hx, hpage, hpte⟩ := hload.pte_mapped (by omega) hin
  have hflags : x.flags = 5 := by
    have hmem := mem_made hx
    rw [hwant, hpage] at hmem
    simpa using hmem
  have huser : UserPage (loadProgram strayProgram.start (strayProgram.fin - strayProgram.start)
    astray.mach).2 0x400 := by
    refine ⟨?_, ?_, hload.opened user user_openEntry 0x400 ?_⟩
    · rw [hpte]
      exact leafEntry_present _ _
    · rw [hpte, hflags]
      unfold user leafEntry
      omega
    · exact (hc.upper user 0x400).mpr (boot_upper astray user_openEntry 0x400)
  rcases (hown 0x400 (by omega) huser).2.2.1 with hstack | ⟨p, hseg, -⟩
  · unfold StackPage ustackBase at hstack
    omega
  · exact hnone p hseg

end InaneOS.Mem
