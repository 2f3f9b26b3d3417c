import InaneOS.Mem.Enter

/-!
# Programs one after the other

A run is the state at start-up and a list of calls of `enter_program`. `Running` holds
between the calls. Its field `entry` is the point: a 4 KB entry of the user range
either was left by a split and leads to the page itself, or was made for a program and
leads to a frame that nothing else uses. `vmm_unmap_range` gives both kinds of frames
back, so a frame of the kernel, of a module or of the page tables is lost exactly when
a split maps it to itself (`Apart`).

`Running.call` is the step: one call is one `Load`. `run_keeps` is the induction over
the calls that every result below goes through.
-/

namespace InaneOS.Mem

open InaneOS.Lib

/-! ## Calls -/

/-- The arguments of `enter_program`. -/
structure Call where
  idx : Int
  arg : List Nat
  /-- `sys_run` has `char arg[128]`. -/
  short : arg.length ≤ 127

/-- The call names a registered module. -/
def Call.Target (c : Call) (b : Boot) (mod : Module) : Prop :=
  0 ≤ c.idx ∧ b.mods[c.idx.toNat]? = some mod

namespace Boot

variable (b : Boot)

def enter (m : Mach) (c : Call) : Mach := (enterProgram b.mods c.idx c.arg m).2

def run (cs : List Call) : Mach := cs.foldl b.enter b.mach

/-- Every call of the run names no module or meets the condition, in the state it is made in. -/
def AllCalls (P : Mach → Module → Prop) (cs : List Call) : Prop :=
  ∀ pre c post, cs = pre ++ c :: post → ∀ mod, c.Target b mod → P (b.run pre) mod

theorem run_append (cs : List Call) (c : Call) : b.run (cs ++ [c]) = b.enter (b.run cs) c := by
  rw [run, List.foldl_append]
  rfl

/-- A call that names no module does nothing. -/
theorem enter_none {m : Mach} {c : Call} (h : ∀ mod, ¬ c.Target b mod) : b.enter m c = m := by
  unfold enter enterProgram
  split
  · rfl
  · next h0 =>
    cases hmod : b.mods[c.idx.toNat]? with
    | none => rfl
    | some mod => exact absurd ⟨by omega, hmod⟩ (h mod)

/-- **What every call keeps, every run keeps.** -/
theorem run_keeps {Inv : Mach → Prop} {P : Mach → Module → Prop} (h0 : Inv b.mach)
    (hstep : ∀ m c mod, Inv m → c.Target b mod → P m mod → Inv (b.enter m c)) {cs : List Call}
    (h : b.AllCalls P cs) : Inv (b.run cs) := by
  induction cs using List.reverseRecOn with
  | nil => exact h0
  | append_singleton cs c ih =>
    have hold : Inv (b.run cs) := ih fun pre c' post he => h pre c' (post ++ [c]) (by rw [he]; simp)
    rw [b.run_append]
    by_cases ht : ∃ mod, c.Target b mod
    · obtain ⟨mod, ht⟩ := ht
      exact hstep _ c mod hold ht (h cs c [] rfl mod ht)
    · rw [b.enter_none fun mod hmod => ht ⟨mod, hmod⟩]
      exact hold

/-! ## The invariant -/

/-- A frame of the kernel image, of a registered module or of the page tables. -/
def Live (m : Mach) (f : Nat) : Prop := b.Kernel f ∨ b.Registered f ∨ IsTable m f

/-- The state between two calls. -/
structure Running (m : Mach) : Prop where
  wf : Wf m
  low : Low m
  flat : Flat m
  starved : m.starved = false
  null : m.pmm.used 0 = true
  tables : ∀ f, IsTable m f → f < 262144
  kernel : ∀ f, b.Kernel f → m.pmm.used f = true
  module : ∀ f, b.Registered f → m.pmm.used f = true ∧ ¬ IsTable m f
  entry : ∀ v, rangeStart ≤ v → v < rangeEnd → Mapped4K m v →
    pte m v / 4096 = v ∨ (pte m v / 4096 ≠ 0 ∧ ¬ b.Live m (pte m v / 4096))

/-- No frame that is in use for the kernel, a module or a table is mapped to itself by a 4 KB entry
of the user range. -/
def Apart (m : Mach) : Prop :=
  ∀ f, rangeStart ≤ f → b.Live m f → Mapped4K m f → pte m f / 4096 ≠ f

theorem running_mach : b.Running b.mach where
  wf := b.wf
  low := boot_low b
  flat := boot_flat b
  starved := rfl
  null := b.pmm_spec.2.1
  tables f hf := by
    have hkernel := b.kernel_of_table hf
    have hinside := b.inside
    unfold Kernel at hkernel
    omega
  kernel := b.pmm_spec.2.2.1
  module f hf := ⟨b.registered_used hf, b.module_not_table hf⟩
  entry v _ _ hv := absurd hv.1 (boot_not_small b v)

section Step

variable {b}

theorem Running.live_used {m : Mach} (h : b.Running m) {f : Nat} (hf : b.Live m f) :
    m.pmm.used f = true := by
  rcases hf with hf | hf | hf
  · exact h.kernel f hf
  · exact (h.module f hf).1
  · exact h.wf.used f hf (h.tables f hf)

/-- The clearing gives back no frame that is in use. -/
theorem Running.not_given {m : Mach} (h : b.Running m) (hapart : b.Apart m) {f : Nat}
    (hf : b.Live m f) : ¬ Given m f := by
  intro h
  obtain ⟨w, hlo, hhi, hw, rfl⟩ := h
  rcases h.entry w hlo hhi hw with hself | ⟨-, hfree⟩
  · rw [hself] at hf
    exact hapart w hlo hf hw hself
  · exact hfree hf

theorem Running.null_not_given {m : Mach} (h : b.Running m) : ¬ Given m 0 := by
  intro h
  obtain ⟨w, hlo, hhi, hw, h0⟩ := h
  rcases h.entry w hlo hhi hw with hself | ⟨hne, -⟩
  · unfold rangeStart at hlo
    omega
  · exact hne h0

theorem Running.ready {m : Mach} (h : b.Running m) (hapart : b.Apart m) {mod : Module}
    (hmod : mod ∈ b.mods) : Ready m mod where
  wf := h.wf
  low := h.low
  flat := h.flat
  starved := h.starved
  null := ⟨h.null, h.null_not_given⟩
  tables f hf := h.not_given hapart (Or.inr (Or.inr hf))
  bound := (b.pmm_spec.2.2.2 mod hmod).bound.2
  name := (b.pmm_spec.2.2.2 mod hmod).name
  image f hf := by
    have hreg : b.Registered f := ⟨mod, hmod, hf⟩
    exact ⟨(h.module f hreg).1, h.not_given hapart (Or.inr (Or.inl hreg)), (h.module f hreg).2⟩

/-- **The clearing** keeps the invariant. -/
theorem Running.cleared {m m₁ : Mach} (h : b.Running m) (hapart : b.Apart m)
    (hc : Cleared rangeStart rangeEnd m m₁) : b.Running m₁ where
  wf := hc.wf h.wf fun _ hf => h.not_given hapart (Or.inr (Or.inr hf))
  low := hc.low h.low
  flat := hc.flat h.flat
  starved := hc.starved.trans h.starved
  null := hc.still_used h.null h.null_not_given
  tables f hf := h.tables f ((hc.isTable f).mp hf)
  kernel f hf := hc.still_used (h.kernel f hf) (h.not_given hapart (Or.inl hf))
  module f hf := by
    refine ⟨hc.still_used (h.module f hf).1 (h.not_given hapart (Or.inr (Or.inl hf))), fun ht => ?_⟩
    exact (h.module f hf).2 ((hc.isTable f).mp ht)
  entry v hlo hhi hv := absurd hv (hc.bare hlo hhi)

section Load

variable {I : Nat → Prop} {m₁ m' : Mach} {ms : List Mapping} {l sp : List Nat}

/-- A frame that is in use was so before, or was taken for a table. -/
theorem Running.live_load (h : Load I m₁ ms l sp m') {f : Nat} (hf : b.Live m' f) :
    b.Live m₁ f ∨ f ∈ l := by
  rcases hf with hf | hf | hf
  · exact Or.inl (Or.inl hf)
  · exact Or.inl (Or.inr (Or.inl hf))
  · exact ((h.table f).mp hf).imp_left fun ht => Or.inr (Or.inr ht)

/-- A 4 KB entry behind a load was made by it, or leads to the page itself. -/
theorem Running.entry_load (hrun : b.Running m₁)
    (hbare : ∀ v, rangeStart ≤ v → v < rangeEnd → ¬ Mapped4K m₁ v)
    (h : Load I m₁ ms l sp m') {v : Nat} (hlo : rangeStart ≤ v) (hhi : v < rangeEnd)
    (hv : Mapped4K m' v) :
    (∃ x ∈ ms, x.page = v ∧ pte m' v / 4096 = x.frame) ∨
      (v ∉ pages ms ∧ ¬ Small m₁ v ∧ pte m' v = v * 4096 + 3) := by
  have hlt : v < 2 ^ 20 := by
    unfold rangeEnd at hhi
    omega
  by_cases hin : v ∈ pages ms
  · obtain ⟨x, hx, hxv, hpte⟩ := h.pte_mapped (by omega) hin
    refine Or.inl ⟨x, hx, hxv, ?_⟩
    rw [hpte, leafEntry_frame]
    omega
  · have hpte := h.pte_other (show v < 2 ^ 36 by omega) hin
    have hsmall : ¬ Small m₁ v := by
      intro hs
      refine hbare v hlo hhi ⟨hs, ?_⟩
      rw [← hpte]
      exact hv.2
    exact Or.inr ⟨hin, hsmall, hpte.trans (hrun.flat v hlt hsmall)⟩

/-- **A load** keeps the invariant. -/
theorem Running.load (hrun : b.Running m₁)
    (hbare : ∀ v, rangeStart ≤ v → v < rangeEnd → ¬ Mapped4K m₁ v)
    (h : Load I m₁ ms l sp m') : b.Running m' := by
  have hkeep : ∀ f, m₁.pmm.used f = true → m'.pmm.used f = true :=
    fun f hf => (h.used f).mpr (Or.inl hf)
  -- a frame that was taken was free, so it is no frame of the kernel or of a module
  have hfree : ∀ f, f ∈ l ∨ f ∈ frames ms ∨ f ∈ sp → ¬ b.Live m₁ f := by
    intro f hf hlive
    have hunused := (h.taken_free hrun.wf hf).2
    rw [hrun.live_used hlive] at hunused
    exact absurd hunused (by simp)
  refine
    { wf := h.wf
      low := h.low hrun.low
      flat := fun v hv hs => ?_
      starved := h.starved.trans hrun.starved
      null := hkeep 0 hrun.null
      tables := fun f hf => ?_
      kernel := fun f hf => hkeep f (hrun.kernel f hf)
      module := fun f hf => ⟨hkeep f (hrun.module f hf).1, fun ht => ?_⟩
      entry := fun v hlo hhi hv => ?_ }
  · have hout : v ∉ pages ms := by
      intro hin
      obtain ⟨x, hx, rfl⟩ := List.mem_map.mp hin
      exact hs (h.small x hx)
    rw [h.pte_other (by omega) hout]
    refine hrun.flat v hv fun hs₁ => hs ?_
    obtain ⟨t, ht⟩ := hs₁
    exact ⟨t, h.node _ _ ht⟩
  · rcases (h.table f).mp hf with hold | hnew
    · exact hrun.tables f hold
    · exact (h.taken_free hrun.wf (Or.inl hnew)).1
  · rcases (h.table f).mp ht with hold | hnew
    · exact (hrun.module f hf).2 hold
    · exact hfree f (Or.inl hnew) (Or.inr (Or.inl hf))
  · rcases hrun.entry_load hbare h hlo hhi hv with ⟨x, hx, -, hframe⟩ | ⟨-, -, hself⟩
    · have hmem : x.frame ∈ frames ms := List.mem_map_of_mem hx
      rw [hframe]
      refine Or.inr ⟨h.nonnull _ (Or.inl hmem), fun hlive => ?_⟩
      rcases Running.live_load h hlive with hold | hnew
      · exact hfree _ (Or.inr (Or.inl hmem)) hold
      · exact (h.apart _ hnew).1 hmem
    · rw [hself]
      exact Or.inl (by omega)

end Load

/-- **One call** is one load, from the state behind the clearing. -/
theorem Running.call {I : Nat → Prop} {ok : Nat → Prop} {lone : Prop} {m m₁ : Mach} {c : Call}
    {mod : Module} (h : b.Running m) (ht : c.Target b mod) (hapart : b.Apart m)
    (hm₁ : vmmUnmapRange userMin ustackTop m = m₁)
    (hwrap : NoWrap m mod.start (mod.fin - mod.start))
    (hI : ∀ f, InImage mod.start (mod.fin - mod.start) f → I f)
    (hin : ehdrSize ≤ mod.fin - mod.start → (ehdrAt m mod.start).accepted (mod.fin - mod.start) →
      ∀ j < (ehdrAt m mod.start).phnum, ¬ (hdr m mod.start j).skipped →
        ¬ (hdr m mod.start j).refused (mod.fin - mod.start) → (hdr m mod.start j).In I mod.start)
    (hlasts : Lasts ok lone m mod.start (mod.fin - mod.start)) :
    Cleared rangeStart rangeEnd m m₁ ∧ b.Running m₁ ∧
    ∃ ms l sp, Load I m₁ ms l sp (b.enter m c) ∧
      made ms <+: programPlan m mod.start (mod.fin - mod.start) ∧
      (∀ f, f ∈ l ∨ f ∈ frames ms → ok f) ∧ (¬ lone → sp = []) ∧
      ((enterProgram b.mods c.idx c.arg m).1.isSome = true →
        made ms = programPlan m mod.start (mod.fin - mod.start)) ∧
      ((enterProgram b.mods c.idx c.arg m).1 = none →
        (elfPlan m mod.start (mod.fin - mod.start)).2 = false ∨
        (stock m).length ≤ 2 * (elfPlan m mod.start (mod.fin - mod.start)).1.length + 1) := by
  have hmod : mod ∈ b.mods := List.mem_of_getElem? ht.2
  have hbound := (b.pmm_spec.2.2.2 mod hmod).bound
  obtain ⟨hc, -, hload⟩ := enterProgram_load (h.ready hapart hmod) hbound.1 hm₁ hwrap hI hin hlasts
    ht.1 ht.2 c.short
  exact ⟨hc, h.cleared hapart hc, hload⟩

/-- Reading the image asks nothing when its frames do not matter. -/
theorem in_true (img : Nat) (p : Phdr) : p.In (fun _ => True) img := fun _ _ => trivial

end Step

/-! ## Frames that are in use -/

/-- The condition under which a call gives no frame back that is in use: none is mapped to itself
in the user range, no sum of header fields wraps, and memory does not run out at a page table. -/
structure Sound (m : Mach) (mod : Module) : Prop where
  apart : b.Apart m
  sums : NoWrap m mod.start (mod.fin - mod.start)
  lasts : Lasts (fun _ => True) True m mod.start (mod.fin - mod.start)

variable {b} in
theorem Running.enter {m : Mach} {c : Call} {mod : Module} (h : b.Running m) (ht : c.Target b mod)
    (hs : b.Sound m mod) : b.Running (b.enter m c) := by
  obtain ⟨hc, hrun, ms, l, sp, hload, -⟩ := h.call ht hs.apart rfl hs.sums (fun _ _ => trivial)
    (fun _ _ _ _ _ _ => in_true _ _) hs.lasts
  exact hrun.load (fun v hlo hhi => hc.bare hlo hhi) hload

end Boot

/-! ## A small machine -/

/-- The words of an ELF file: the header, and a program header with offset, address, file size and
memory size for each segment. -/
def elfWords (entry : Nat) (segs : List (Nat × Nat × Nat × Nat)) : List Nat :=
  [0x00010102464C457F, 0, 0x00000001003E0002, entry, 64, 0, 0x0038004000000000, segs.length] ++
    segs.flatMap fun (off, vaddr, filesz, memsz) =>
      [0x0000000500000001, off, vaddr, 0, filesz, memsz, 0]

/-- A machine with 32 free frames from 2 MB on and `words` in one frame. -/
def sample (frame : Nat) (words : List Nat) (modules : List MbMod)
    (apart : ∀ x ∈ modules, x.modEnd ≤ 0x100000 ∨ 0x180000 ≤ x.modStart) : Boot where
  base := 0x110
  kstart := 0x100000
  kend := 0x180000
  ram f i := if f = frame then words.getD i 0 else 0
  mmap := [⟨0x200000, 0x20000, 1⟩]
  modules := modules
  inside := by decide
  regions := by decide
  apart := apart

section Sample

variable {frame : Nat} {words : List Nat} {modules : List MbMod}
  {apart : ∀ x ∈ modules, x.modEnd ≤ 0x100000 ∨ 0x180000 ≤ x.modStart}

theorem sample_init (f : Nat) : (pmmInit [⟨0x200000, 0x20000, 1⟩] 0x100000 0x180000).used f = true ↔
    ¬ (0x200 ≤ f ∧ f < 0x220) := by
  have hinit : pmmInit [⟨0x200000, 0x20000, 1⟩] 0x100000 0x180000 =
      setUsedLoop 0x80 0x100 (releaseLoop 0x20 0x200 fullPmm) := rfl
  rw [hinit, setUsedLoop_used, releaseLoop_used, fullPmm_used, Bool.true_and, Bool.not_eq_true',
    decide_eq_false_iff_not]
  omega

/-- All frames but the 32 are in use. -/
theorem sample_used {f : Nat} (hf : ¬ (0x200 ≤ f ∧ f < 0x220)) :
    (sample frame words modules apart).mach.pmm.used f = true := by
  have hok := (@pmmInit_spec [⟨0x200000, 0x20000, 1⟩] (by decide) 0x100000 0x180000 (by decide)).1
  exact (@execInitMods_spec modules modules [] _ (fun _ hx => hx) hok
    (fun mod hmod => absurd hmod (by simp))).2.1 f ((sample_init f).mpr hf)

/-- The 32 frames are free when the modules lie elsewhere. -/
theorem sample_free (hout : ∀ x ∈ modules, x.modEnd ≤ 0x200000 ∨ 0x220000 ≤ x.modStart) {f : Nat}
    (hf : 0x200 ≤ f ∧ f < 0x220) : (sample frame words modules apart).mach.pmm.used f = false := by
  have hinit : (pmmInit [⟨0x200000, 0x20000, 1⟩] 0x100000 0x180000).used f = false := by
    rw [← Bool.not_eq_true, sample_init]
    omega
  refine execInitMods_outside hinit fun x hx => ?_
  rcases hout x hx with hbelow | habove
  · right
    rw [Nat.mod_eq_of_lt (by omega)]
    omega
  · left
    omega

theorem sample_stock (hout : ∀ x ∈ modules, x.modEnd ≤ 0x200000 ∨ 0x220000 ≤ x.modStart) {f : Nat} :
    f ∈ stock (sample frame words modules apart).mach ↔ 0x200 ≤ f ∧ f < 0x220 := by
  rw [mem_stock (Boot.pmm_spec _).1]
  constructor
  · intro h
    obtain ⟨-, hunused | ⟨w, -, -, hw, -⟩⟩ := h
    · by_contra hf
      rw [sample_used hf] at hunused
      exact absurd hunused (by simp)
    · exact absurd hw.1 (boot_not_small _ w)
  · intro hf
    exact ⟨by omega, Or.inl (sample_free hout hf)⟩

theorem sample_length (hout : ∀ x ∈ modules, x.modEnd ≤ 0x200000 ∨ 0x220000 ≤ x.modStart) :
    32 ≤ (stock (sample frame words modules apart).mach).length := by
  have hsub : List.range' 0x200 32 ⊆ stock (sample frame words modules apart).mach := by
    intro f hf
    rw [List.mem_range'_1] at hf
    exact (sample_stock hout).mpr hf
  have hlen := (List.subperm_of_subset List.nodup_range' hsub).length_le
  rwa [List.length_range'] at hlen

end Sample

namespace Boot

theorem allCalls_single (b : Boot) {P : Mach → Module → Prop} {c : Call}
    (h : ∀ mod, c.Target b mod → P b.mach mod) : b.AllCalls P [c] := by
  intro pre c' post he mod ht
  cases pre with
  | nil =>
    obtain ⟨rfl, -⟩ := List.cons.inj he
    exact h mod ht
  | cons x pre =>
    have hlen := congrArg List.length he
    simp at hlen

theorem run_one (b : Boot) (c : Call) : b.run [c] = b.enter b.mach c := b.run_append [] c

theorem run_two (b : Boot) (c d : Call) : b.run [c, d] = b.enter (b.enter b.mach c) d := by
  rw [← b.run_one c]
  exact b.run_append [c] d

theorem apart_mach (b : Boot) : b.Apart b.mach := fun f _ _ hf => absurd hf.1 (boot_not_small b f)

/-- A call whose image is refused stops where `elf_load` did. -/
theorem enter_refused (b : Boot) {c : Call} {mod : Module} (ht : c.Target b mod) {m m₁ : Mach}
    (hm₁ : vmmUnmapRange userMin ustackTop m = m₁)
    (h : (elfLoad mod.start (mod.fin - mod.start) m₁).1 = none) :
    b.enter m c = (elfLoad mod.start (mod.fin - mod.start) m₁).2 := by
  subst hm₁
  have hload := loadProgram_none h
  unfold enter
  rw [enterProgram_none ht.1 ht.2 _ (by rw [hload]), hload]

/-- The first call, with memory enough, maps all it asks for. -/
theorem first_call (b : Boot) {c : Call} {mod : Module} (ht : c.Target b mod)
    (hwrap : NoWrap b.mach mod.start (mod.fin - mod.start))
    (hacc : (elfPlan b.mach mod.start (mod.fin - mod.start)).2 = true)
    (hlen : 2 * (elfPlan b.mach mod.start (mod.fin - mod.start)).1.length + 3 ≤
      (stock b.mach).length) :
    ∃ m₁ ms l, Cleared rangeStart rangeEnd b.mach m₁ ∧ b.Running m₁ ∧
      Load (fun _ => True) m₁ ms l [] (b.enter b.mach c) ∧
      made ms = programPlan b.mach mod.start (mod.fin - mod.start) := by
  obtain ⟨hc, hrun, ms, l, sp, hload, -, -, hsp, hdone, hfail⟩ :=
    b.running_mach.call ht b.apart_mach
    rfl hwrap (fun _ _ => trivial) (fun _ _ _ _ _ _ => in_true _ _)
    (@lasts_of_length (fun _ => True) False _ _ _ (fun _ _ => trivial) hlen)
  have hsome : (enterProgram b.mods c.idx c.arg b.mach).1.isSome = true := by
    by_contra hnone
    rcases hfail (by simpa using hnone) with hno | hshort
    · rw [hacc] at hno
      exact absurd hno (by simp)
    · omega
  rw [hsp not_false] at hload
  exact ⟨_, ms, l, hc, hrun, hload, hdone hsome⟩

end Boot

/-- A program at 0x190000 with one page at 4 MB, and a module of one byte in the page behind. -/
def neighbours : Boot := sample 0x190 (elfWords 0x400000 [(0, 0x400000, 0, 1)])
  [⟨0x190000, 0x190078, [105]⟩, ⟨0x401000, 0x401001, [106]⟩] (by decide)

def program : Module := ⟨0x190000, 0x190078, [105]⟩
def oneByte : Module := ⟨0x401000, 0x401001, [106]⟩

def callOf (idx : Int) : Call := ⟨idx, [], by decide⟩

theorem neighbours_mods : neighbours.mods = [program, oneByte] := rfl

theorem neighbours_plan :
    elfPlan neighbours.mach program.start (program.fin - program.start) = ([(0x400, 5)], true) := by
  decide

theorem neighbours_noWrap : NoWrap neighbours.mach program.start (program.fin - program.start) := by
  refine ⟨fun _ _ => by decide, fun _ _ j hj _ _ => ?_⟩
  have h0 : j = 0 := by
    have h1 : (ehdrAt neighbours.mach program.start).phnum = 1 := by decide
    omega
  rw [h0]
  unfold Phdr.Sane
  decide

theorem neighbours_stock :
    2 * (elfPlan neighbours.mach program.start (program.fin - program.start)).1.length + 3 ≤
      (stock neighbours.mach).length := by
  have hlen : 32 ≤ (stock neighbours.mach).length := sample_length (by decide)
  rw [neighbours_plan, List.length_singleton]
  omega

end InaneOS.Mem
