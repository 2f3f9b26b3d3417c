import InaneOS.Fat.Calls
import InaneOS.Fs.Invariant
import InaneOS.Kernel.System
import InaneOS.Mem.Args

/-!
# What holds in every state of the running system

`SysInv` puts together what each part of the kernel keeps: the node table is a tree, the
records of a mount agree, the terminal stays on the screen and the key queue is a ring.
The parts were proved one by one, over their own calls; here the calls are those that
programs make, in any order and with any arguments, with key interrupts in between and
programs that come and go. `Stepped` splits an event into its cases and `SysInv.step`
goes through them; `system_inv` is the induction over a run from the start.

`getc_in_order` is about the run as a whole. The one reader of the key queue is a program
that has called `SYS_GETC`, and when that program ends the next one goes on where it
stopped: all characters that programs were given, one after the other, are those that
were accepted, from the first one on.
-/

namespace InaneOS.Kernel

open InaneOS.Lib
open InaneOS.Fat (Str Vol)
open InaneOS.Fs
open InaneOS.Drivers
open InaneOS.Mem (Mach enterProgram)

/-! ## The records of a mount -/

/-- What says that a partition is mounted says the same, and the partition is in the table. -/
structure Mounts (s : FS) : Prop where
  agree : s.mounted = s.fat.isMounted
  index : s.mounted = true → 0 ≤ s.mountedIdx ∧ s.mountedIdx < s.parts.length
  none : s.mounted = false → s.mountedIdx = -1

/-- A request that is neither a mount nor an unmount. -/
def Request.Plain : Request → Prop
  | .call (.mountPart _) => False
  | .call .unmount => False
  | _ => True

/-- What such a request leaves alone. -/
structure Framed (s s' : FS) : Prop where
  parts : s'.parts = s.parts
  mounted : s'.mounted = s.mounted
  mountedIdx : s'.mountedIdx = s.mountedIdx
  isMounted : s'.fat.isMounted = s.fat.isMounted

theorem Framed.refl (s : FS) : Framed s s := ⟨rfl, rfl, rfl, rfl⟩

theorem Framed.mounts {s s' : FS} (h : Framed s s') (hm : Mounts s) : Mounts s' where
  agree := by rw [h.mounted, h.isMounted]; exact hm.agree
  index := by rw [h.mounted, h.mountedIdx, h.parts]; exact hm.index
  none := by rw [h.mounted, h.mountedIdx]; exact hm.none

theorem framed_fat (s : FS) {f : Vol} (hf : f.isMounted = s.fat.isMounted) :
    Framed s { s with fat := f } := ⟨rfl, rfl, rfl, hf⟩

theorem looked_isMounted {f f' : Vol} (h : Fat.Looked f f') : f'.isMounted = f.isMounted := by
  obtain ⟨s, rfl⟩ := h
  rfl

theorem moved_isMounted {f f' : Vol} (h : Fat.Moved f f') : f'.isMounted = f.isMounted := by
  obtain ⟨ws, s, n, rfl⟩ := h
  rfl

theorem fsMkdir_framed (arg : Str) (s : FS) : Framed s (fsMkdir arg s).2 := by
  unfold fsMkdir
  repeat' split
  all_goals exact ⟨rfl, rfl, rfl, rfl⟩

theorem fsFwrite_framed {fuel : Nat} {path buf : Str} {s : FS} {r : Int × FS}
    (h : fsFwrite fuel path buf s = some r) : Framed s r.2 := by
  unfold fsFwrite at h
  split at h
  · split at h
    · exact absurd h (by simp)
    · next hw =>
      rw [← Option.some.inj h]
      exact framed_fat s (moved_isMounted (Fat.fatWrite_moved hw))
  · rw [← Option.some.inj h]
    repeat' split
    all_goals exact ⟨rfl, rfl, rfl, rfl⟩

/-- `fat_chdir` sets the current directory, or looks only. -/
theorem fatChdir_isMounted {fuel : Nat} {path : Str} {f f' : Vol} {ok : Bool}
    (h : Fat.fatChdir fuel path f = some (ok, f')) : f'.isMounted = f.isMounted := by
  have hrun : (Fat.FatCall.chdir path).run fuel f = some f' := by
    rw [Fat.FatCall.run, h]
    rfl
  rcases Fat.FatCall.run_cases hrun with hm | ⟨_, _, hit, f₁, -, -, hw, -, rfl⟩
  · exact moved_isMounted hm
  · have hl := looked_isMounted (Fat.walk_looked hw)
    exact hl

theorem fsChdir_framed {fuel : Nat} {path : Str} {s : FS} {r : Int × FS}
    (h : fsChdir fuel path s = some r) : Framed s r.2 := by
  unfold fsChdir at h
  split at h
  · split at h
    · exact absurd h (by simp)
    · next hc =>
      rw [← Option.some.inj h]
      exact framed_fat s (fatChdir_isMounted hc)
  · rw [← Option.some.inj h]
    repeat' split
    all_goals exact ⟨rfl, rfl, rfl, rfl⟩

theorem fsListdir_framed {fuel cap : Nat} {path : Str} {s : FS} {r : (Int × Str) × FS}
    (h : fsListdir fuel path cap s = some r) : Framed s r.2 := by
  unfold fsListdir at h
  split at h
  · split at h
    · exact absurd h (by simp)
    · next hl =>
      rw [← Option.some.inj h]
      exact framed_fat s (looked_isMounted (Fat.fatList_looked hl))
    · next hl =>
      rw [← Option.some.inj h]
      exact framed_fat s (looked_isMounted (Fat.fatList_looked hl))
  · dsimp only at h
    split at h
    · rw [← Option.some.inj h]
      exact .refl s
    · split at h <;>
      · rw [← Option.some.inj h]
        exact .refl s

theorem Request.run_framed {fuel : Nat} {q : Request} (hq : q.Plain) {s : FS}
    {r : (Int × Str) × FS} (h : q.run fuel s = some r) : Framed s r.2 := by
  cases q with
  | fread path cap =>
    rw [Request.run] at h
    split at h
    · obtain ⟨x, hx, rfl⟩ := Option.map_eq_some_iff.mp h
      exact framed_fat s (looked_isMounted (Fat.fatRead_looked hx))
    · rw [← Option.some.inj h]
      exact .refl s
  | call c =>
    cases c with
    | mkdir arg =>
      rw [← Option.some.inj h]
      exact fsMkdir_framed arg s
    | fwrite path buf =>
      obtain ⟨x, hx, rfl⟩ := Option.map_eq_some_iff.mp h
      exact fsFwrite_framed hx
    | chdir path =>
      obtain ⟨x, hx, rfl⟩ := Option.map_eq_some_iff.mp h
      exact fsChdir_framed hx
    | listdir path cap =>
      obtain ⟨x, hx, rfl⟩ := Option.map_eq_some_iff.mp h
      have hf := fsListdir_framed hx
      exact ⟨hf.parts, hf.mounted, hf.mountedIdx, hf.isMounted⟩
    | getcwd cap =>
      rw [← Option.some.inj h]
      exact .refl s
    | freadRam path cap =>
      rw [← Option.some.inj h]
      exact .refl s
    | mountPart idx => exact hq.elim
    | unmount => exact hq.elim

/-- A mount that fails leaves the records as they were. -/
theorem fatMount_isMounted {lba : Nat} {f f' : Vol} (h : Fat.fatMount lba f = (false, f')) :
    f'.isMounted = f.isMounted := by
  unfold Fat.fatMount at h
  split at h
  · rw [← (Prod.mk.inj h).2]
  · next hr =>
    obtain ⟨b, rfl⟩ := Fat.ideRead_looked hr
    dsimp only at h
    split at h
    · rw [← (Prod.mk.inj h).2]
    · split at h
      · rw [← (Prod.mk.inj h).2]
      · exact absurd (Prod.mk.inj h).1 (by simp)

theorem fatMount_mounted {lba : Nat} {f f' : Vol} (h : Fat.fatMount lba f = (true, f')) :
    f'.isMounted = true := by
  unfold Fat.fatMount at h
  split at h
  · exact absurd (Prod.mk.inj h).1 (by simp)
  · dsimp only at h
    split at h
    · exact absurd (Prod.mk.inj h).1 (by simp)
    · split at h
      · exact absurd (Prod.mk.inj h).1 (by simp)
      · rw [← (Prod.mk.inj h).2]

theorem partGet_some {idx : Int} {s : FS} {p : Part} (h : partGet idx s = some p) :
    0 ≤ idx ∧ idx < s.parts.length := by
  unfold partGet at h
  split at h
  · exact absurd h (by simp)
  · omega

theorem fsMountPart_mounts (idx : Int) {s : FS} (h : Mounts s) :
    Mounts (fsMountPart idx s).2 ∧ (fsMountPart idx s).2.parts = s.parts := by
  unfold fsMountPart
  split
  · exact ⟨h, rfl⟩
  · next p hp =>
    split
    · next f hf =>
      exact ⟨(framed_fat s (fatMount_isMounted hf)).mounts h, rfl⟩
    · next f hf =>
      exact ⟨⟨(fatMount_mounted hf).symm, fun _ => partGet_some hp, fun hc => absurd hc (by simp)⟩,
        rfl⟩

/-- **One request**, of any kind. -/
theorem Request.run_mounts {fuel : Nat} {q : Request} {s : FS} (hm : Mounts s)
    {r : (Int × Str) × FS} (h : q.run fuel s = some r) : Mounts r.2 ∧ r.2.parts = s.parts := by
  by_cases hq : q.Plain
  · have hf := Request.run_framed hq h
    exact ⟨hf.mounts hm, hf.parts⟩
  · cases q with
    | fread path cap => exact absurd trivial hq
    | call c =>
      cases c with
      | mountPart idx =>
        rw [← Option.some.inj h]
        exact fsMountPart_mounts idx hm
      | unmount =>
        rw [← Option.some.inj h]
        exact ⟨⟨rfl, fun hc => absurd hc (by simp [fsUnmount]), fun _ => rfl⟩, rfl⟩
      | _ => exact absurd trivial hq

theorem Request.run_inv {fuel : Nat} {q : Request} {s : FS} (hs : FsInv s) {r : (Int × Str) × FS}
    (h : q.run fuel s = some r) : FsInv r.2 := by
  cases q with
  | fread path cap =>
    rw [Request.run] at h
    split at h
    · obtain ⟨x, -, rfl⟩ := Option.map_eq_some_iff.mp h
      exact hs.frame rfl rfl
    · rw [← Option.some.inj h]
      exact hs
  | call c =>
    cases c with
    | listdir path cap =>
      obtain ⟨x, hx, rfl⟩ := Option.map_eq_some_iff.mp h
      exact (fsListdir_state hs hx).frame rfl rfl
    | _ =>
      rw [Request.run_call (by simp)] at h
      exact Call.run_inv hs h

/-! ## A small system -/

/-- One program on the machine of two modules, a small drive with no partition table, nothing on
the screen. -/
def sampleHardware : Hardware where
  boot := Mem.neighbours
  dev := smallDrive [] fun _ _ => 0
  cells _ := 0
  cursor := 0
  keys _ := 0
  said := []

theorem sample_enters : ∃ entry sp m,
    enterProgram Mem.neighbours.mods 0 [] Mem.neighbours.mach = (some (entry, sp), m) := by
  have hmem : Mem.program ∈ Mem.neighbours.mods := by rw [Mem.neighbours_mods]; simp
  obtain ⟨entry, f, hload, -⟩ := Mem.neighbours.first_argPage hmem Mem.neighbours_noWrap
    (by rw [Mem.neighbours_plan]) Mem.neighbours_stock
  exact ⟨_, _, _, Mem.enterProgram_some (Int.le_refl 0) (by rw [Mem.neighbours_mods]; rfl) [] hload⟩

/-- The same with any drive. -/
theorem sample_start_on (dev : Ata) : ∃ m, kernelMain { sampleHardware with dev := dev } =
    ⟨{ bootStatics { sampleHardware with dev := dev } with mach := m }, .user⟩ := by
  obtain ⟨entry, sp, m, he⟩ := sample_enters
  have he' : enterProgram (bootStatics { sampleHardware with dev := dev }).mods 0 []
      (bootStatics { sampleHardware with dev := dev }).mach = (some (entry, sp), m) := he
  refine ⟨m, ?_⟩
  rw [kernelMain, he']
  exact if_neg (show ¬ Mem.neighbours.modules = [] by decide)

theorem sample_start : ∃ m, kernelMain sampleHardware =
    ⟨{ bootStatics sampleHardware with mach := m }, .user⟩ :=
  sample_start_on sampleHardware.dev

/-- A frame with a system call of no arguments. -/
def plainFrame (no : BitVec 64) : SyscallFrame :=
  ⟨no, 0, 0, 0, 0, 0, 0, 0, 0, 0, 0, 0, 0, 0, 0⟩

/-- What `SYS_GETC` leaves in `rax`. -/
def charRax (c : UInt8) : BitVec 64 := BitVec.ofNat 64 c.toNat

/-- `a` is typed, and a program takes it. -/
def typedA : List (Event × Reply) :=
  [(.irq 0x1E, .silent), (.call (plainFrame 1) fun _ => 0, .silent), (.read, .silent),
    (.read, .silent), (.read, .silent), (.read, .back (charRax 97) fun _ => 0)]

theorem typedA_runs (k : Statics) (hk : k.kbd = (History.init fun _ => 0).kbd) :
    ∃ s, Allows Steps ⟨k, .user⟩ typedA s := by
  obtain ⟨fs, term, kbd, mods, mach⟩ := k
  obtain rfl : kbd = (History.init fun _ => 0).kbd := hk
  exact ⟨_, .cons ⟨0, rfl⟩ (.cons ⟨0, rfl⟩ (.cons ⟨0, rfl⟩ (.cons ⟨0, rfl⟩ (.cons ⟨0, rfl⟩
    (.cons ⟨0, rfl⟩ (.nil _))))))⟩

/-! ## The invariant -/

structure SysInv (h : Hardware) (s : Sys) : Prop where
  fs : FsInv s.k.fs
  parts : s.k.fs.parts = (partScan ataBus ⟨0, false, h.dev⟩).2.1
  mounts : Mounts s.k.fs
  term : TermInv s.k.term
  mods : s.k.mods = h.boot.mods
  /-- Memory is what some calls of `enter_program` have made of it. -/
  mach : ∃ cs, s.k.mach = h.boot.run cs

theorem SysInv.keeps {h : Hardware} {k k' : Statics} {cpu cpu' : Cpu} (hi : SysInv h ⟨k, cpu⟩)
    (hk : Keeps k k') (hfs : FsInv k'.fs) (hm : Mounts k'.fs) (hp : k'.fs.parts = k.fs.parts) :
    SysInv h ⟨k', cpu'⟩ := by
  obtain ⟨ks, hks⟩ := hk.term
  obtain ⟨cs, hcs⟩ := hk.mach
  obtain ⟨cs₀, hcs₀⟩ := hi.mach
  refine ⟨hfs, hp.trans hi.parts, hm, ?_, hk.mods.trans hi.mods, cs₀ ++ cs, ?_⟩
  · rw [hks]
    exact hi.term.calls ks
  · have hmods : k.mods = h.boot.mods := hi.mods
    have hmach : k.mach = h.boot.run cs₀ := hcs₀
    show k'.mach = _
    rw [hcs, hmods, hmach]
    exact List.foldl_append.symm

/-- **One event** keeps it. -/
theorem SysInv.step {h : Hardware} {s s' : Sys} {e : Event} {o : Reply} (hi : SysInv h s)
    (hs : Steps s e o s') : SysInv h s' := by
  cases hs.cases with
  | irq sc _ => exact ⟨hi.fs, hi.parts, hi.mounts, hi.term, hi.mods, hi.mach⟩
  | wait mem kbd _ _ => exact ⟨hi.fs, hi.parts, hi.mounts, hi.term, hi.mods, hi.mach⟩
  | got mem c kbd _ _ => exact ⟨hi.fs, hi.parts, hi.mounts, hi.term, hi.mods, hi.mach⟩
  | fault _ =>
    obtain ⟨hfs, -, hmods, hmach⟩ := panicked_aside s.k
    have hterm := (TermCall.puts panicText).run_inv ((TermCall.setColor 0x0C 0x00).run_inv hi.term)
    refine ⟨by rw [hfs]; exact hi.fs, by rw [hfs]; exact hi.parts, by rw [hfs]; exact hi.mounts,
      ?_, hmods.trans hi.mods, by rw [hmach]; exact hi.mach⟩
    unfold panicked
    exact hterm
  | call fuel f mem out hcpu hout =>
    have hk := dispatch_keeps hout
    cases hq : request f mem with
    | none =>
      have hfs := (dispatch_aside hq hout).fs
      exact hi.keeps hk (by rw [hfs]; exact hi.fs) (by rw [hfs]; exact hi.mounts) (by rw [hfs])
    | some q =>
      rw [dispatch_request hq] at hout
      obtain ⟨r, hr, rfl⟩ := Option.map_eq_some_iff.mp hout
      obtain ⟨hm, hp⟩ := Request.run_mounts hi.mounts hr
      exact hi.keeps hk (Request.run_inv hi.fs hr) hm hp

theorem bootFs_inv (dev : Ata) : FsInv (bootFs dev) ∧ Mounts (bootFs dev) ∧
    (bootFs dev).parts = (partScan ataBus ⟨0, false, dev⟩).2.1 := by
  have hinit := fsInit_inv { bareFS with fat := plainVol (diskOf dev) }
  have hparts : ∀ ps : List Part, FsInv
      { fsInit { bareFS with fat := plainVol (diskOf dev) } with parts := ps } ∧
      Mounts { fsInit { bareFS with fat := plainVol (diskOf dev) } with parts := ps } := fun ps =>
    ⟨hinit.frame rfl rfl, ⟨rfl, fun hc => absurd hc (by simp [fsInit, bareFS]), fun _ => rfl⟩⟩
  obtain ⟨hfs, hm⟩ := hparts (partScan ataBus ⟨0, false, dev⟩).2.1
  unfold bootFs
  dsimp only
  split
  · obtain ⟨hm', hp'⟩ := fsMountPart_mounts 0 hm
    exact ⟨fsMountPart_inv hfs 0, hm', hp'⟩
  · exact ⟨hfs, hm, rfl⟩

/-- The first program is entered, or there is none. -/
theorem kernelMain_cases (h : Hardware) :
    (∃ c, kernelMain h =
      ⟨{ bootStatics h with term := TermCall.run c (bootStatics h).term }, .idle⟩) ∨
    (∃ m, kernelMain h = ⟨{ bootStatics h with mach := m }, .user⟩ ∧
      m = h.boot.run [⟨0, [], by decide⟩]) ∨
    ∃ m c, kernelMain h =
      ⟨{ bootStatics h with mach := m, term := TermCall.run c (bootStatics h).term }, .idle⟩ ∧
      m = h.boot.run [⟨0, [], by decide⟩] := by
  have hrun : h.boot.run [⟨0, [], by decide⟩] =
      (enterProgram (bootStatics h).mods 0 [] (bootStatics h).mach).2 := rfl
  unfold kernelMain
  dsimp only
  split
  · exact Or.inl ⟨.puts noInit, rfl⟩
  · split
    · next he => exact Or.inr (Or.inl ⟨_, rfl, by rw [hrun, he]⟩)
    · next he => exact Or.inr (Or.inr ⟨_, .puts badInit, rfl, by rw [hrun, he]⟩)

theorem kernelMain_inv (h : Hardware) : SysInv h (kernelMain h) := by
  obtain ⟨hfs, hm, hp⟩ := bootFs_inv h.dev
  have hterm : TermInv (bootStatics h).term :=
    (TermCall.puts h.said).run_inv (TermCall.clear.run_inv (init_inv h.cells h.cursor))
  rcases kernelMain_cases h with ⟨c, he⟩ | ⟨m, he, hmach⟩ | ⟨m, c, he, hmach⟩
  · rw [he]
    exact ⟨hfs, hp, hm, c.run_inv hterm, rfl, ⟨[], rfl⟩⟩
  · rw [he]
    exact ⟨hfs, hp, hm, hterm, rfl, ⟨_, hmach⟩⟩
  · rw [he]
    exact ⟨hfs, hp, hm, c.run_inv hterm, rfl, ⟨_, hmach⟩⟩

/-- **In every state of the running system**, whatever programs do and whenever keys come: the node
table is a tree, the records of a mount agree and name a partition of the table found at boot, the
terminal is on the screen and has touched nothing else, and memory is what calls of
`enter_program` have made of it. -/
theorem system_inv {h : Hardware} {rs : List (Event × Reply)} {s : Sys}
    (hrun : Allows Steps (kernelMain h) rs s) : SysInv h s :=
  hrun.rule (fun _ _ _ _ hi hs => hi.step hs) (kernelMain_inv h)

theorem system_inv_sample : ∃ s, Allows Steps (kernelMain sampleHardware) typedA s ∧
    SysInv sampleHardware s := by
  obtain ⟨m, hm⟩ := sample_start
  obtain ⟨s, hs⟩ := typedA_runs { bootStatics sampleHardware with mach := m } rfl
  rw [← hm] at hs
  exact ⟨s, hs, system_inv hs⟩

/-! ## Keys -/

/-- What an event is to the key queue. -/
def Event.key : Event → Option KeyEvent
  | .irq sc => some (.irq sc)
  | .read => some .cpu
  | _ => none

/-- The characters that programs were given, as they were given. -/
def answered (rs : List (Event × Reply)) : List (BitVec 64) :=
  rs.filterMap fun r =>
    match r with
    | (.read, .back rax _) => some rax
    | _ => none

/-- The history goes on with the event, and a character taken is the answer. -/
def KeySpec (t : History) (e : Event) (o : Reply) (t' : History) : Prop :=
  t' = (match e.key with | some ke => t.step ke | none => t) ∧
    t'.returned.map charRax = t.returned.map charRax ++ answered [(e, o)]

structure Keyed (s : Sys) (t : History) : Prop where
  kbd : t.kbd = s.k.kbd
  queue : ∃ n, QueueInv t n
  /-- A program that has not asked for a character has not begun to take one. -/
  idle : (∀ mem, s.cpu ≠ .reading mem) → s.k.kbd.pc = .idle

theorem keyboardHandler_pc (sc : UInt8) (k : Kbd) : (keyboardHandler sc k).2.2.pc = k.pc := by
  unfold keyboardHandler push
  dsimp only
  split
  · split <;> rfl
  · rfl

theorem keyed_step (s : Sys) (t : History) (e : Event) (o : Reply) (s' : Sys) (h : Keyed s t)
    (hs : Steps s e o s') : ∃ t', KeySpec t e o t' ∧ Keyed s' t' := by
  obtain ⟨n, hn⟩ := h.queue
  cases hs.cases with
  | irq sc _ =>
    refine ⟨t.step (.irq sc), ⟨rfl, (List.append_nil _).symm⟩, ⟨?_, hn.step _, fun hc => ?_⟩⟩
    · show (keyboardHandler sc t.kbd).2.2 = _
      rw [h.kbd]
    · rw [keyboardHandler_pc]
      exact h.idle hc
  | wait mem kbd hcpu hg =>
    have hstep : (t.step .cpu).kbd = kbd ∧ (t.step .cpu).returned = t.returned := by
      simp only [History.step]
      rw [h.kbd, hg]
      exact ⟨rfl, List.append_nil _⟩
    refine ⟨t.step .cpu, ⟨rfl, ?_⟩, ⟨hstep.1, hn.step _, fun hc => absurd rfl (hc mem)⟩⟩
    rw [hstep.2]
    exact (List.append_nil _).symm
  | got mem c kbd hcpu hg =>
    have hstep : (t.step .cpu).kbd = kbd ∧ (t.step .cpu).returned = t.returned ++ [c] := by
      simp only [History.step]
      rw [h.kbd, hg]
      exact ⟨rfl, rfl⟩
    refine ⟨t.step .cpu, ⟨rfl, ?_⟩, ⟨hstep.1, hn.step _, fun _ => ?_⟩⟩
    · rw [hstep.2, List.map_append]
      rfl
    · -- only the last step of `getchar` gives a character, and it ends there
      unfold getcharStep at hg
      split at hg
      · exact absurd (congrArg Prod.fst hg) (by simp)
      · exact absurd (congrArg Prod.fst hg) (by simp)
      · exact absurd (congrArg Prod.fst hg) (by simp)
      · rw [← (Prod.mk.inj hg).2]
  | fault hcpu =>
    refine ⟨t, ⟨rfl, (List.append_nil _).symm⟩, ⟨?_, h.queue, fun _ => ?_⟩⟩
    · rw [(panicked_aside s.k).2.1]
      exact h.kbd
    · rw [(panicked_aside s.k).2.1]
      exact h.idle (by simp [hcpu])
  | call fuel f mem out hcpu hout =>
    have hk := (dispatch_keeps hout).kbd
    refine ⟨t, ⟨rfl, (List.append_nil _).symm⟩, ⟨?_, h.queue, fun _ => ?_⟩⟩
    · rw [hk]
      exact h.kbd
    · rw [hk]
      exact h.idle (by simp [hcpu])

/-- A run of the history. -/
theorem keySpec_run {t t' : History} {rs : List (Event × Reply)} (h : Allows KeySpec t rs t') :
    t' = t.run (rs.filterMap fun r => r.1.key) ∧
      t'.returned.map charRax = t.returned.map charRax ++ answered rs := by
  induction h with
  | nil t => exact ⟨rfl, (List.append_nil _).symm⟩
  | @cons t t₁ t₂ e o rs first _ ih =>
    obtain ⟨rfl, hret⟩ := first
    obtain ⟨hrun, hall⟩ := ih
    constructor
    · rw [hrun, List.filterMap_cons]
      cases e.key <;> rfl
    · rw [hall, hret, List.append_assoc, answered, answered, ← List.filterMap_append]
      rfl

theorem kernelMain_keyed (h : Hardware) : Keyed (kernelMain h) (History.init h.keys) := by
  rcases kernelMain_cases h with ⟨c, he⟩ | ⟨m, he, -⟩ | ⟨m, c, he, -⟩ <;>
  · rw [he]
    exact ⟨rfl, ⟨0, init_queueInv h.keys⟩, fun _ => rfl⟩

/-- **Keys come in order, from program to program.** The characters that all `SYS_GETC` calls of a
run have returned, whichever programs made them, are the first of those accepted, in the order in
which they were decoded; at most 31 are still to come. -/
theorem getc_in_order {h : Hardware} {rs : List (Event × Reply)} {s : Sys}
    (hrun : Allows Steps (kernelMain h) rs s) :
    let t := (History.init h.keys).run (rs.filterMap fun r => r.1.key)
    s.k.kbd = t.kbd ∧ answered rs = t.returned.map charRax ∧ t.returned <+: t.accepted ∧
      t.accepted.Sublist t.arrived ∧ t.accepted.length ≤ t.returned.length + 31 := by
  intro t
  obtain ⟨t', hspec, hkeyed⟩ := hrun.simulate (R := Keyed) keyed_step (kernelMain_keyed h)
  obtain ⟨rfl, hret⟩ := keySpec_run hspec
  obtain ⟨n, hn⟩ := hkeyed.queue
  have hacc : t.accepted = _ := hn.accepted
  refine ⟨hkeyed.kbd.symm, ?_, ⟨_, hn.accepted.symm⟩, run_sublist _ (List.Sublist.refl _), ?_⟩
  · rw [show t.returned.map charRax = _ from hret]
    rfl
  · rw [hacc, List.length_append, window_length]
    exact Nat.add_le_add_left hn.le _

theorem getc_in_order_sample : ∃ s, Allows Steps (kernelMain sampleHardware) typedA s ∧
    answered typedA = [charRax 97] ∧
    answered typedA = ((History.init sampleHardware.keys).run
      (typedA.filterMap fun r => r.1.key)).returned.map charRax := by
  obtain ⟨m, hm⟩ := sample_start
  obtain ⟨s, hs⟩ := typedA_runs { bootStatics sampleHardware with mach := m } rfl
  rw [← hm] at hs
  exact ⟨s, hs, rfl, (getc_in_order hs).2.1⟩

end InaneOS.Kernel
