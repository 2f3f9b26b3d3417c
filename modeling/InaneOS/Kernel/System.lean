import InaneOS.Drivers.VgaWrite
import InaneOS.Fat.Rounds
import InaneOS.Kernel.PartScan
import InaneOS.Kernel.Syscall
import InaneOS.Mem.Run

/-!
# The running system

`kernel_main` sets the kernel up and enters the first program. From then on four things
happen, in any order: a key is pressed, the running program makes a system call, a
`getchar` that waits for a key takes a step, and a program faults. Between its calls a
program can do anything with its memory and registers, so a call comes with whatever
frame and memory it has. Interrupts are off inside the kernel but for `getchar`.

`Steps` is one event with what the program is told of it, and a run is a list of these
(`Allows Steps`). The file system sees a system call as a `Request`: `dispatch_request`
and `dispatch_rest` say once what a call does to it, and `dispatch_keeps` what becomes
of the other parts of the kernel.
-/

namespace InaneOS.Kernel

open InaneOS.Lib
open InaneOS.Fat (Str)
open InaneOS.Fs
open InaneOS.Drivers
open InaneOS.Mem (Mach Module enterProgram)

/-! ## States and events -/

/-- What the processor is at: a program, a `getchar` called by a program with that memory, a halt
that interrupts end for a moment, or one that nothing ends. -/
inductive Cpu
  | user
  | reading (mem : Memory)
  | idle
  | stopped

structure Sys where
  k : Statics
  cpu : Cpu

inductive Event
  | irq (sc : UInt8)
  | call (f : SyscallFrame) (mem : Memory)
  | read
  | fault

/-- What the program gets to see: nothing, the end of its call, or the start of a program. -/
inductive Reply
  | silent
  | back (rax : BitVec 64) (mem : Memory)
  | enters (entry sp : Nat)

def Outcome.statics : Outcome → Statics
  | .back _ _ k => k
  | .reads k => k
  | .enters _ _ k => k
  | .halts k => k
  | .resets k => k

def Outcome.reply : Outcome → Reply
  | .back rax mem _ => .back rax mem
  | .enters entry sp _ => .enters entry sp
  | _ => .silent

/-- Where the processor is after a call made with the memory `mem`. -/
def Outcome.cpu (mem : Memory) : Outcome → Cpu
  | .back _ _ _ => .user
  | .reads _ => .reading mem
  | .enters _ _ _ => .user
  | _ => .stopped

/-- `"\n*** EXCEPTION! CPU found fatality condition ***\n"` -/
def panicText : Str :=
  [10, 42, 42, 42, 32, 69, 88, 67, 69, 80, 84, 73, 79, 78, 33, 32, 67, 80, 85, 32, 102, 111, 117,
    110, 100, 32, 102, 97, 116, 97, 108, 105, 116, 121, 32, 99, 111, 110, 100, 105, 116, 105, 111,
    110, 32, 42, 42, 42, 10]

/-- `panic()` -/
def panicked (k : Statics) : Statics :=
  { k with term := termPuts panicText (termSetColor 0x0C 0x00 k.term) }

theorem panicked_aside (k : Statics) :
    (panicked k).fs = k.fs ∧ (panicked k).kbd = k.kbd ∧ (panicked k).mods = k.mods ∧
      (panicked k).mach = k.mach := by
  unfold panicked
  exact ⟨rfl, rfl, rfl, rfl⟩

/-- One event; `none` when it cannot happen now, or the rounds do not suffice. -/
def step (fuel : Nat) (s : Sys) : Event → Option (Reply × Sys)
  | .irq sc =>
    match s.cpu with
    | .stopped => none
    | cpu => some (.silent, ⟨{ s.k with kbd := (keyboardHandler sc s.k.kbd).2.2 }, cpu⟩)
  | .call f mem =>
    match s.cpu with
    | .user => (syscallDispatcher fuel f mem s.k).map fun o => (o.reply, ⟨o.statics, o.cpu mem⟩)
    | _ => none
  | .read =>
    match s.cpu with
    | .reading mem =>
      match getcharStep s.k.kbd with
      | (none, kbd) => some (.silent, ⟨{ s.k with kbd := kbd }, .reading mem⟩)
      | (some c, kbd) =>
        some (.back (BitVec.ofNat 64 c.toNat) mem, ⟨{ s.k with kbd := kbd }, .user⟩)
    | _ => none
  | .fault =>
    match s.cpu with
    | .user => some (.silent, ⟨panicked s.k, .stopped⟩)
    | _ => none

/-- An event that the system does, in however many rounds. -/
def Steps (s : Sys) (e : Event) (o : Reply) (s' : Sys) : Prop :=
  ∃ fuel, step fuel s e = some (o, s')

/-! ## The start -/

/-- What differs from one start to another: memory and modules, the drive, what is on the screen
and in the key buffer, and what `pci_scan` and the network card's driver print. -/
structure Hardware where
  boot : Mem.Boot
  dev : Ata
  cells : Int → UInt16
  cursor : Nat
  keys : Nat → Int8
  said : Str

/-- `"no init module\n"` -/
def noInit : Str := [110, 111, 32, 105, 110, 105, 116, 32, 109, 111, 100, 117, 108, 101, 10]

/-- `"bad init elf\n"` -/
def badInit : Str := [98, 97, 100, 32, 105, 110, 105, 116, 32, 101, 108, 102, 10]

/-- `fs_init()`, `part_scan()` and the mount of the first partition. -/
def bootFs (dev : Ata) : FS :=
  let fs := fsInit { bareFS with fat := plainVol (diskOf dev) }
  let fs := { fs with parts := (partScan ataBus ⟨0, false, dev⟩).2.1 }
  if fs.parts.length > 0 then (fsMountPart 0 fs).2 else fs

/-- The statics when `kernel_main` looks for the first program. -/
def bootStatics (h : Hardware) : Statics where
  fs := bootFs h.dev
  term := termPuts h.said (termClear (Term.init h.cells h.cursor))
  kbd := (History.init h.keys).kbd
  mods := h.boot.mods
  mach := h.boot.mach

/-- `kernel_main` up to the first program. -/
def kernelMain (h : Hardware) : Sys :=
  let k := bootStatics h
  if h.boot.modules = [] then ⟨{ k with term := termPuts noInit k.term }, .idle⟩
  else
    match enterProgram k.mods 0 [] k.mach with
    | (some _, m) => ⟨{ k with mach := m }, .user⟩
    | (none, m) => ⟨{ k with mach := m, term := termPuts badInit k.term }, .idle⟩

theorem kernelMain_fs (h : Hardware) : (kernelMain h).k.fs = bootFs h.dev := by
  unfold kernelMain
  dsimp only
  split
  · rfl
  · split <;> rfl

/-! ## Strings of the caller -/

theorem scanStr_spec (mem : Memory) : ∀ (max : Nat) (s : BitVec 64),
    (scanStr mem max s).length ≤ max ∧ (0 : UInt8) ∉ scanStr mem max s
  | 0, _ => ⟨Nat.le_refl _, by simp [scanStr]⟩
  | max + 1, s => by
    obtain ⟨hlen, hnul⟩ := scanStr_spec mem max (plus s 1)
    rw [scanStr]
    split
    · exact ⟨Nat.zero_le _, by simp⟩
    · next h0 =>
      refine ⟨Nat.succ_le_succ hlen, fun hmem => ?_⟩
      rcases List.mem_cons.mp hmem with h | h
      · exact h0 h.symm
      · exact hnul h

/-- A string the kernel has copied is whole, and fits its buffer. -/
theorem copyStr_spec {mem : Memory} {src : BitVec 64} {cap : Nat} {s : Str}
    (h : copyStr mem src cap = some s) : s.length + 1 ≤ cap ∧ (0 : UInt8) ∉ s := by
  unfold copyStr at h
  dsimp only at h
  split at h
  · exact absurd h (by simp)
  · next hc =>
    split at h
    · exact absurd h (by simp)
    · obtain rfl := Option.some.inj h
      obtain ⟨hlen, hnul⟩ := scanStr_spec mem (cap - 1) src
      exact ⟨by omega, hnul⟩

theorem pathArg_spec {p : BitVec 64} {mem : Memory} {s : Str} (h : pathArg p mem = some s) :
    s.length ≤ 127 ∧ (0 : UInt8) ∉ s :=
  have ⟨hlen, hnul⟩ := copyStr_spec h
  ⟨by omega, hnul⟩

theorem store_nil (mem : Memory) (p : BitVec 64) : store mem p [] = mem := by
  funext a
  exact if_neg (by simp)

/-! ## Requests -/

/-- What a call asks of the file system. -/
inductive Request
  | call (c : Fs.Call)
  | fread (path : Str) (cap : Nat)

/-- The result, the bytes stored in the caller's buffer, and the state after it. -/
def Request.run (fuel : Nat) : Request → FS → Option ((Int × Str) × FS)
  | .call (.listdir path cap), s =>
    (fsListdir fuel path cap s).map fun r => ((r.1.1, listdirOut fuel path cap s r.1.2), r.2)
  | .call c, s => c.run fuel s
  | .fread path cap, s =>
    if Fat.fatMounted s.fat then
      (Fat.fatRead fuel path cap s.fat).map fun r =>
        ((match r.1.1 with | none => -1 | some n => n, r.1.2), { s with fat := r.2 })
    else some (fsFreadRam path cap s, s)

theorem Request.run_call {c : Fs.Call} (hc : ∀ path cap, c ≠ .listdir path cap) (fuel : Nat)
    (s : FS) : (Request.call c).run fuel s = c.run fuel s := by
  cases c with
  | listdir path cap => exact absurd rfl (hc path cap)
  | _ => rfl

/-- The request a frame makes, and where its output goes; `none` for the calls that have nothing
to do with files and those turned down for their arguments. -/
def request (f : SyscallFrame) (mem : Memory) : Option (Request × BitVec 64) :=
  match sysNo f.rax with
  | .chdir => (pathArg f.rdi mem).map fun p => (.call (.chdir p), 0)
  | .mkdir => (pathArg f.rdi mem).map fun p => (.call (.mkdir p), 0)
  | .listdir =>
    if f.rsi = 0 ∨ f.rdx.toNat > 8192 then none
    else (pathArg f.rdi mem).map fun p => (.call (.listdir p f.rdx.toNat), f.rsi)
  | .getcwd =>
    if f.rdi = 0 ∨ f.rsi.toNat > 512 ∨ f.rsi.toNat < 2 then none
    else some (.call (.getcwd f.rsi.toNat), f.rdi)
  | .mount =>
    some (.call (if f.rdi.toInt < 0 then .unmount else .mountPart (f.rdi.setWidth 32).toInt), 0)
  | .fread =>
    if f.rsi = 0 ∨ f.rdx.toNat > 8192 then none
    else (pathArg f.rdi mem).map fun p => (.fread p f.rdx.toNat, f.rsi)
  | .fwrite =>
    if f.rsi = 0 ∨ f.rdx.toNat > fileMax then none
    else (pathArg f.rdi mem).map fun p => (.call (.fwrite p (bytesAt mem f.rsi f.rdx.toNat)), 0)
  | _ => none

variable {fuel : Nat} {f : SyscallFrame} {mem : Memory} {k : Statics}

/-- **A call that makes a request** is that request. -/
theorem dispatch_request {q : Request} {p : BitVec 64} (h : request f mem = some (q, p)) :
    syscallDispatcher fuel f mem k = (q.run fuel k.fs).map fun r =>
      answer r.1.1 (store mem p r.1.2) { k with fs := r.2 } := by
  unfold request at h
  unfold syscallDispatcher
  split at h
  · next hno =>
    obtain ⟨path, hpath, he⟩ := Option.map_eq_some_iff.mp h
    obtain ⟨rfl, rfl⟩ := Prod.mk.inj he
    rw [hno]
    show sysChdir fuel f.rdi mem k = _
    unfold sysChdir
    rw [hpath]
    dsimp only [Request.run, Fs.Call.run]
    cases fsChdir fuel path k.fs with
    | none => rfl
    | some r => simp only [Option.map_some, store_nil]
  · next hno =>
    obtain ⟨path, hpath, he⟩ := Option.map_eq_some_iff.mp h
    obtain ⟨rfl, rfl⟩ := Prod.mk.inj he
    rw [hno]
    show some (sysMkdir f.rdi mem k) = _
    unfold sysMkdir
    rw [hpath]
    dsimp only [Request.run, Fs.Call.run]
    rw [Option.map_some, store_nil]
  · next hno =>
    split at h
    · exact absurd h (by simp)
    · next hargs =>
      obtain ⟨path, hpath, he⟩ := Option.map_eq_some_iff.mp h
      obtain ⟨rfl, rfl⟩ := Prod.mk.inj he
      rw [hno]
      show sysListdir fuel f.rdi f.rsi f.rdx mem k = _
      unfold sysListdir
      rw [hpath]
      dsimp only [Request.run]
      rw [if_neg hargs]
      cases fsListdir fuel path f.rdx.toNat k.fs with
      | none => rfl
      | some r => rfl
  · next hno =>
    split at h
    · exact absurd h (by simp)
    · next hargs =>
      obtain ⟨rfl, rfl⟩ := Prod.mk.inj (Option.some.inj h)
      rw [hno]
      show some (sysGetcwd f.rdi f.rsi mem k) = _
      unfold sysGetcwd
      rw [if_neg hargs]
      rfl
  · next hno =>
    obtain ⟨rfl, rfl⟩ := Prod.mk.inj (Option.some.inj h)
    rw [hno]
    show some (sysMountCase f.rdi mem k) = _
    unfold sysMountCase User.sysMount
    by_cases hneg : f.rdi.toInt < 0
    · rw [if_pos hneg, if_pos hneg]
      dsimp only [Request.run, Fs.Call.run]
      rw [Option.map_some, store_nil]
      rfl
    · rw [if_neg hneg, if_neg hneg]
      dsimp only [Request.run, Fs.Call.run]
      rw [Option.map_some, store_nil]
      rfl
  · next hno =>
    split at h
    · exact absurd h (by simp)
    · next hargs =>
      obtain ⟨path, hpath, he⟩ := Option.map_eq_some_iff.mp h
      obtain ⟨rfl, rfl⟩ := Prod.mk.inj he
      rw [hno]
      show sysFread fuel f.rdi f.rsi f.rdx mem k = _
      unfold sysFread
      rw [hpath]
      dsimp only [Request.run]
      rw [if_neg hargs]
      by_cases hm : Fat.fatMounted k.fs.fat = true
      · rw [if_pos hm, if_pos hm]
        cases Fat.fatRead fuel path f.rdx.toNat k.fs.fat with
        | none => rfl
        | some r => rfl
      · rw [if_neg hm, if_neg hm]
        rfl
  · next hno =>
    split at h
    · exact absurd h (by simp)
    · next hargs =>
      obtain ⟨path, hpath, he⟩ := Option.map_eq_some_iff.mp h
      obtain ⟨rfl, rfl⟩ := Prod.mk.inj he
      rw [hno]
      show sysFwrite fuel f.rdi f.rsi f.rdx mem k = _
      unfold sysFwrite
      rw [hpath]
      dsimp only [Request.run, Fs.Call.run]
      rw [if_neg hargs]
      cases fsFwrite fuel path (bytesAt mem f.rsi f.rdx.toNat) k.fs with
      | none => rfl
      | some r => simp only [Option.map_some, store_nil]
  · exact absurd h (by simp)

/-! ## What a call does not touch -/

/-- A sequence of calls of `enter_program`. -/
def entered (mods : List Module) (cs : List Mem.Call) (m : Mach) : Mach :=
  cs.foldl (fun m c => (enterProgram mods c.idx c.arg m).2) m

/-- What a call does outside the file system: it writes to the screen, and enters programs. -/
structure Keeps (k k' : Statics) : Prop where
  kbd : k'.kbd = k.kbd
  mods : k'.mods = k.mods
  term : ∃ ks, k'.term = Drivers.runCalls ks k.term
  mach : ∃ cs, k'.mach = entered k.mods cs k.mach

theorem Keeps.refl (k : Statics) : Keeps k k := ⟨rfl, rfl, ⟨[], rfl⟩, ⟨[], rfl⟩⟩

theorem Keeps.trans {k k' k'' : Statics} (h : Keeps k k') (h' : Keeps k' k'') : Keeps k k'' := by
  obtain ⟨ks, hks⟩ := h.term
  obtain ⟨ks', hks'⟩ := h'.term
  obtain ⟨cs, hcs⟩ := h.mach
  obtain ⟨cs', hcs'⟩ := h'.mach
  refine ⟨h'.kbd.trans h.kbd, h'.mods.trans h.mods, ⟨ks ++ ks', ?_⟩, ⟨cs ++ cs', ?_⟩⟩
  · rw [hks', hks, runCalls_append]
  · rw [hcs', hcs, h.mods, entered, entered, entered, List.foldl_append]

theorem keeps_fs (fs : FS) (k : Statics) : Keeps k { k with fs := fs } :=
  ⟨rfl, rfl, ⟨[], rfl⟩, ⟨[], rfl⟩⟩

/-- The same of a call that is no request. -/
structure Aside (k k' : Statics) : Prop extends Keeps k k' where
  fs : k'.fs = k.fs

theorem Aside.refl (k : Statics) : Aside k k := ⟨Keeps.refl k, rfl⟩

theorem Aside.trans {k k' k'' : Statics} (h : Aside k k') (h' : Aside k' k'') : Aside k k'' :=
  ⟨h.toKeeps.trans h'.toKeeps, h'.fs.trans h.fs⟩

theorem aside_term (c : TermCall) (k : Statics) : Aside k { k with term := c.run k.term } :=
  ⟨⟨rfl, rfl, ⟨[c], rfl⟩, ⟨[], rfl⟩⟩, rfl⟩

theorem aside_enter (c : Mem.Call) (k : Statics) :
    Aside k { k with mach := (enterProgram k.mods c.idx c.arg k.mach).2 } :=
  ⟨⟨rfl, rfl, ⟨[], rfl⟩, ⟨[c], rfl⟩⟩, rfl⟩

theorem enterInit_aside (k : Statics) : Aside k (enterInit k).statics := by
  have henter := aside_enter ⟨0, [], by decide⟩ k
  unfold enterInit
  dsimp only at henter
  split
  · next he =>
    rw [he] at henter
    exact henter
  · next he =>
    rw [he] at henter
    exact henter.trans (aside_term (.puts initLost) _)

theorem sysPuts_aside (s : BitVec 64) : Aside k (sysPuts s mem k).statics := by
  unfold sysPuts
  dsimp only
  split
  · exact .refl k
  · split
    · exact .refl k
    · exact aside_term (.write _) k

theorem sysWrite_aside (s n : BitVec 64) : Aside k (sysWrite s n mem k).statics := by
  unfold sysWrite
  split
  · exact .refl k
  · exact aside_term (.write _) k

theorem sysRun_aside (name arg : BitVec 64) : Aside k (sysRun name arg mem k).statics := by
  unfold sysRun
  split
  · exact .refl k
  · next nm _ =>
    split
    · exact .refl k
    · next ap hap =>
      dsimp only
      split
      · exact .refl k
      · have hshort : (ap.map UInt8.toNat).length ≤ 127 := by
          rw [List.length_map]
          split at hap
          · have := (copyStr_spec hap).1
            omega
          · obtain rfl := Option.some.inj hap
            exact Nat.zero_le _
        have henter :=
          aside_enter ⟨execFind (nm.map UInt8.toNat) k.mods, ap.map UInt8.toNat, hshort⟩ k
        dsimp only at henter
        split
        · next he =>
          rw [he] at henter
          exact henter
        · next he =>
          rw [he] at henter
          exact henter.trans (enterInit_aside _)

theorem sysLsmod_aside (buf cap : BitVec 64) : Aside k (sysLsmod buf cap mem k).statics := by
  unfold sysLsmod
  split <;> exact .refl k

theorem sysParts_aside (buf cap : BitVec 64) : Aside k (sysParts buf cap mem k).statics := by
  unfold sysParts
  split <;> exact .refl k

theorem sysMeminfo_aside (buf cap : BitVec 64) : Aside k (sysMeminfo buf cap mem k).statics := by
  unfold sysMeminfo
  split <;> exact .refl k

/-- A path that is turned down. -/
theorem noPath {α : Type} {p : BitVec 64} {g : Str → α} (h : (pathArg p mem).map g = none) :
    pathArg p mem = none := by
  cases hp : pathArg p mem with
  | none => rfl
  | some s =>
    rw [hp] at h
    exact absurd h (by simp)

/-- A call turned down for a path or a buffer. -/
theorem noArgs {α : Type} {c : Prop} [Decidable c] {p : BitVec 64} {g : Str → α}
    (h : (if c then none else (pathArg p mem).map g) = none) : pathArg p mem = none ∨ c := by
  split at h
  · next hc => exact Or.inr hc
  · exact Or.inl (noPath h)

section Turned

variable {path buf cap : BitVec 64}

theorem sysChdir_turned (h : pathArg path mem = none) :
    sysChdir fuel path mem k = some (answer eInval mem k) := by
  unfold sysChdir
  rw [h]

theorem sysMkdir_turned (h : pathArg path mem = none) :
    sysMkdir path mem k = answer eInval mem k := by
  unfold sysMkdir
  rw [h]

theorem sysListdir_turned (h : pathArg path mem = none ∨ (buf = 0 ∨ cap.toNat > 8192)) :
    sysListdir fuel path buf cap mem k = some (answer eInval mem k) := by
  unfold sysListdir
  rcases h with hp | hc
  · rw [hp]
  · cases pathArg path mem with
    | none => rfl
    | some p => exact if_pos hc

theorem sysFread_turned (h : pathArg path mem = none ∨ (buf = 0 ∨ cap.toNat > 8192)) :
    sysFread fuel path buf cap mem k = some (answer eInval mem k) := by
  unfold sysFread
  rcases h with hp | hc
  · rw [hp]
  · cases pathArg path mem with
    | none => rfl
    | some p => exact if_pos hc

theorem sysFwrite_turned (h : pathArg path mem = none ∨ (buf = 0 ∨ cap.toNat > fileMax)) :
    sysFwrite fuel path buf cap mem k = some (answer eInval mem k) := by
  unfold sysFwrite
  rcases h with hp | hc
  · rw [hp]
  · cases pathArg path mem with
    | none => rfl
    | some p => exact if_pos hc

end Turned

/-- **A call that makes no request** leaves the file system alone. -/
theorem dispatch_aside (h : request f mem = none) {o : Outcome}
    (ho : syscallDispatcher fuel f mem k = some o) : Aside k o.statics := by
  have hturned : ∀ {r : Option Outcome}, r = some o → r = some (answer eInval mem k) →
      Aside k o.statics := by
    rintro r hr hr'
    rw [hr'] at hr
    rw [← Option.some.inj hr]
    exact .refl k
  unfold syscallDispatcher at ho
  unfold request at h
  split at ho
  case h_1 => exact Option.some.inj ho ▸ sysPuts_aside _
  case h_2 => exact Option.some.inj ho ▸ .refl k
  case h_3 => exact Option.some.inj ho ▸ aside_term (.puts _) k
  case h_4 => exact Option.some.inj ho ▸ .refl k
  case h_5 => exact Option.some.inj ho ▸ aside_term (.puts _) k
  case h_6 => exact Option.some.inj ho ▸ enterInit_aside k
  case h_7 => exact Option.some.inj ho ▸ sysWrite_aside _ _
  case h_8 hno => exact hturned ho (sysChdir_turned (noPath (by rwa [hno] at h)))
  case h_9 hno => exact hturned ho (congrArg some (sysMkdir_turned (noPath (by rwa [hno] at h))))
  case h_10 hno => exact hturned ho (sysListdir_turned (noArgs (by rwa [hno] at h)))
  case h_11 hno =>
    rw [hno] at h
    refine hturned ho ?_
    unfold sysGetcwd
    dsimp only at h
    split at h
    · next hc => rw [if_pos hc]
    · exact absurd h (by simp)
  case h_12 => exact Option.some.inj ho ▸ aside_term (.setColor _ _) k
  case h_13 => exact Option.some.inj ho ▸ sysMeminfo_aside _ _
  case h_14 => exact Option.some.inj ho ▸ sysRun_aside _ _
  case h_15 => exact Option.some.inj ho ▸ sysLsmod_aside _ _
  case h_16 => exact Option.some.inj ho ▸ sysParts_aside _ _
  case h_17 hno =>
    rw [hno] at h
    exact absurd h (by simp)
  case h_18 hno => exact hturned ho (sysFread_turned (noArgs (by rwa [hno] at h)))
  case h_19 => exact Option.some.inj ho ▸ aside_term (.goto _ _) k
  case h_20 hno => exact hturned ho (sysFwrite_turned (noArgs (by rwa [hno] at h)))
  case h_21 => exact Option.some.inj ho ▸ aside_term .clear k
  case h_22 => exact Option.some.inj ho ▸ .refl k

/-- Any call, outside the file system. -/
theorem dispatch_keeps {o : Outcome} (ho : syscallDispatcher fuel f mem k = some o) :
    Keeps k o.statics := by
  cases hq : request f mem with
  | none => exact (dispatch_aside hq ho).toKeeps
  | some q =>
    rw [dispatch_request hq] at ho
    obtain ⟨r, -, rfl⟩ := Option.map_eq_some_iff.mp ho
    exact keeps_fs r.2 k

/-! ## Rounds -/

theorem Request.run_mono {fuel' : Nat} (hle : fuel ≤ fuel') {q : Request} {s : FS}
    {r : (Int × Str) × FS} (h : q.run fuel s = some r) : q.run fuel' s = some r := by
  have hmap : ∀ {α β : Type} {g : α → β} {a b : Option α} {y : β},
      (∀ x, a = some x → b = some x) → a.map g = some y → b.map g = some y := by
    intro α β g a b y hab hy
    obtain ⟨x, hx, rfl⟩ := Option.map_eq_some_iff.mp hy
    rw [hab x hx]
    rfl
  cases q with
  | fread path cap =>
    rw [Request.run] at h ⊢
    split at h
    · next hm =>
      rw [if_pos hm]
      exact hmap (fun _ => Fat.fatRead_mono hle) h
    · next hm =>
      rw [if_neg hm]
      exact h
  | call c =>
    cases c with
    | mkdir arg => exact h
    | getcwd cap => exact h
    | freadRam path cap => exact h
    | mountPart idx => exact h
    | unmount => exact h
    | chdir path =>
      refine hmap (fun x hx => ?_) h
      unfold fsChdir at hx ⊢
      split at hx
      · next hm =>
        rw [if_pos hm]
        cases hc : Fat.fatChdir fuel path s.fat with
        | none => rw [hc] at hx; exact absurd hx (by simp)
        | some y => rw [hc] at hx; rw [Fat.fatChdir_mono hle hc]; exact hx
      · next hm =>
        rw [if_neg hm]
        exact hx
    | fwrite path buf =>
      refine hmap (fun x hx => ?_) h
      unfold fsFwrite at hx ⊢
      split at hx
      · next hm =>
        rw [if_pos hm]
        cases hc : Fat.fatWrite fuel path buf s.fat with
        | none => rw [hc] at hx; exact absurd hx (by simp)
        | some y => rw [hc] at hx; rw [Fat.fatWrite_mono hle hc]; exact hx
      · next hm =>
        rw [if_neg hm]
        exact hx
    | listdir path cap =>
      rw [Request.run] at h ⊢
      unfold fsListdir listdirOut at h ⊢
      by_cases hm : s.mounted = true
      · rw [if_pos hm] at h ⊢
        cases hc : Fat.fatList fuel path cap s.fat with
        | none => rw [hc] at h; exact absurd h (by simp)
        | some y =>
          rw [hc] at h
          rw [Fat.fatList_mono hle hc]
          simp only [if_pos hm, Fat.listOut_mono hle hc] at h ⊢
          exact h
      · rw [if_neg hm] at h ⊢
        simp only [if_neg hm] at h ⊢
        exact h

/-- The rounds matter to requests only. -/
theorem dispatch_rest (h : request f mem = none) (fuel' : Nat) :
    syscallDispatcher fuel f mem k = syscallDispatcher fuel' f mem k := by
  unfold syscallDispatcher
  unfold request at h
  split
  case h_8 hno =>
    have hp := noPath (by rwa [hno] at h)
    exact (sysChdir_turned hp).trans (sysChdir_turned hp).symm
  case h_10 hno =>
    have hp := noArgs (by rwa [hno] at h)
    exact (sysListdir_turned hp).trans (sysListdir_turned hp).symm
  case h_18 hno =>
    have hp := noArgs (by rwa [hno] at h)
    exact (sysFread_turned hp).trans (sysFread_turned hp).symm
  case h_20 hno =>
    have hp := noArgs (by rwa [hno] at h)
    exact (sysFwrite_turned hp).trans (sysFwrite_turned hp).symm
  all_goals rfl

theorem dispatch_mono {fuel' : Nat} (hle : fuel ≤ fuel') {o : Outcome}
    (ho : syscallDispatcher fuel f mem k = some o) : syscallDispatcher fuel' f mem k = some o := by
  cases hq : request f mem with
  | none => exact (dispatch_rest hq fuel').symm.trans ho
  | some q =>
    rw [dispatch_request hq] at ho ⊢
    obtain ⟨r, hr, rfl⟩ := Option.map_eq_some_iff.mp ho
    rw [Request.run_mono hle hr]
    rfl

theorem step_mono {fuel' : Nat} (hle : fuel ≤ fuel') {s : Sys} {e : Event} {x : Reply × Sys}
    (h : step fuel s e = some x) : step fuel' s e = some x := by
  cases e with
  | irq sc => exact h
  | read => exact h
  | fault => exact h
  | call f mem =>
    unfold step at h ⊢
    dsimp only at h ⊢
    cases hc : s.cpu with
    | user =>
      rw [hc] at h
      obtain ⟨o, ho, rfl⟩ := Option.map_eq_some_iff.mp h
      dsimp only
      rw [dispatch_mono hle ho]
      rfl
    | reading _ => rw [hc] at h; exact h
    | idle => rw [hc] at h; exact h
    | stopped => rw [hc] at h; exact h

/-- **An event has one outcome**, however many rounds it is allowed. -/
theorem Steps.unique {s s₁ s₂ : Sys} {e : Event} {o₁ o₂ : Reply} (h₁ : Steps s e o₁ s₁)
    (h₂ : Steps s e o₂ s₂) : o₁ = o₂ ∧ s₁ = s₂ := by
  obtain ⟨n, h₁⟩ := h₁
  obtain ⟨m, h₂⟩ := h₂
  have h := (step_mono (Nat.le_max_left n m) h₁).symm.trans (step_mono (Nat.le_max_right n m) h₂)
  exact Prod.mk.inj (Option.some.inj h)

/-- **What an event can do**, case by case. -/
inductive Stepped (s : Sys) : Event → Reply → Sys → Prop
  | irq (sc : UInt8) : s.cpu ≠ .stopped →
      Stepped s (.irq sc) .silent ⟨{ s.k with kbd := (keyboardHandler sc s.k.kbd).2.2 }, s.cpu⟩
  | call (fuel : Nat) (f : SyscallFrame) (mem : Memory) (o : Outcome) : s.cpu = .user →
      syscallDispatcher fuel f mem s.k = some o →
      Stepped s (.call f mem) o.reply ⟨o.statics, o.cpu mem⟩
  | wait (mem : Memory) (kbd : Kbd) : s.cpu = .reading mem → getcharStep s.k.kbd = (none, kbd) →
      Stepped s .read .silent ⟨{ s.k with kbd := kbd }, .reading mem⟩
  | got (mem : Memory) (c : UInt8) (kbd : Kbd) : s.cpu = .reading mem →
      getcharStep s.k.kbd = (some c, kbd) →
      Stepped s .read (.back (BitVec.ofNat 64 c.toNat) mem) ⟨{ s.k with kbd := kbd }, .user⟩
  | fault : s.cpu = .user → Stepped s .fault .silent ⟨panicked s.k, .stopped⟩

theorem Steps.cases {s s' : Sys} {e : Event} {o : Reply} (h : Steps s e o s') :
    Stepped s e o s' := by
  obtain ⟨fuel, h⟩ := h
  obtain ⟨k, cpu⟩ := s
  cases e with
  | irq sc =>
    cases cpu with
    | stopped => exact absurd h (by simp [step])
    | user | reading _ | idle =>
      obtain ⟨rfl, rfl⟩ := Prod.mk.inj (Option.some.inj h)
      exact .irq sc (by simp)
  | call f mem =>
    cases cpu with
    | user =>
      obtain ⟨out, hout, he⟩ := Option.map_eq_some_iff.mp h
      obtain ⟨rfl, rfl⟩ := Prod.mk.inj he
      exact .call fuel f mem out rfl hout
    | reading _ | idle | stopped => exact absurd h (by simp [step])
  | read =>
    cases cpu with
    | reading mem =>
      unfold step at h
      dsimp only at h
      rcases hg : getcharStep k.kbd with ⟨_ | c, kbd⟩
      · rw [hg] at h
        obtain ⟨rfl, rfl⟩ := Prod.mk.inj (Option.some.inj h)
        exact .wait mem kbd rfl hg
      · rw [hg] at h
        obtain ⟨rfl, rfl⟩ := Prod.mk.inj (Option.some.inj h)
        exact .got mem c kbd rfl hg
    | user | idle | stopped => exact absurd h (by simp [step])
  | fault =>
    cases cpu with
    | user =>
      obtain ⟨rfl, rfl⟩ := Prod.mk.inj (Option.some.inj h)
      exact .fault rfl
    | reading _ | idle | stopped => exact absurd h (by simp [step])

/-- A request of a program, done. -/
theorem steps_request {q : Request} {p : BitVec 64} (hq : request f mem = some (q, p))
    {r : (Int × Str) × FS} (hr : q.run fuel k.fs = some r) :
    Steps ⟨k, .user⟩ (.call f mem) (.back (BitVec.ofInt 64 r.1.1) (store mem p r.1.2))
      ⟨{ k with fs := r.2 }, .user⟩ := by
  refine ⟨fuel, ?_⟩
  unfold step
  dsimp only
  rw [dispatch_request hq, hr]
  rfl

/-- What an event does to the file system: one request, answered, or nothing. -/
theorem Steps.fs {s s' : Sys} {e : Event} {o : Reply} (h : Steps s e o s') :
    (∃ f mem q p fuel r, e = .call f mem ∧ request f mem = some (q, p) ∧
      q.run fuel s.k.fs = some r ∧ o = .back (BitVec.ofInt 64 r.1.1) (store mem p r.1.2) ∧
      s' = ⟨{ s.k with fs := r.2 }, .user⟩) ∨
    (s'.k.fs = s.k.fs ∧ ∀ f mem, e = .call f mem → request f mem = none) := by
  cases h.cases with
  | irq sc _ => exact Or.inr ⟨rfl, fun f mem he => absurd he (by simp)⟩
  | wait mem kbd _ _ => exact Or.inr ⟨rfl, fun f mem he => absurd he (by simp)⟩
  | got mem c kbd _ _ => exact Or.inr ⟨rfl, fun f mem he => absurd he (by simp)⟩
  | fault _ => exact Or.inr ⟨(panicked_aside s.k).1, fun f mem he => absurd he (by simp)⟩
  | call fuel f mem out hcpu hout =>
    cases hq : request f mem with
    | none =>
      refine Or.inr ⟨(dispatch_aside hq hout).fs, fun f' mem' he => ?_⟩
      obtain ⟨rfl, rfl⟩ := Event.call.inj he
      exact hq
    | some q =>
      rw [dispatch_request hq] at hout
      obtain ⟨r, hr, rfl⟩ := Option.map_eq_some_iff.mp hout
      exact Or.inl ⟨f, mem, q.1, q.2, fuel, r, rfl, hq, hr, rfl, rfl⟩

/-! ## Requests answered by something simpler -/

section Asked

variable {τ : Type} {answers : τ → Request → Int × Str → τ → Prop}

/-- An event with its reply, for something that answers requests: nothing else concerns it. -/
def Asked (answers : τ → Request → Int × Str → τ → Prop) (v : τ) (e : Event) (o : Reply) (v' : τ) :
    Prop :=
  match e with
  | .call f mem =>
    match request f mem with
    | some (q, p) => ∃ r, answers v q r v' ∧ o = .back (BitVec.ofInt 64 r.1) (store mem p r.2)
    | none => v' = v
  | _ => v' = v

/-- **An event is answered** when its request is. -/
theorem Steps.asked {R : FS → τ → Prop} {s s' : Sys} {e : Event} {o : Reply} {v : τ}
    (hs : Steps s e o s') (hv : R s.k.fs v)
    (hreq : ∀ f mem q p fuel r, e = .call f mem → request f mem = some (q, p) →
      q.run fuel s.k.fs = some r → ∃ v', answers v q r.1 v' ∧ R r.2 v') :
    ∃ v', Asked answers v e o v' ∧ R s'.k.fs v' := by
  rcases hs.fs with ⟨f, mem, q, p, fuel, r, rfl, hq, hr, rfl, rfl⟩ | ⟨hfs, hno⟩
  · obtain ⟨v', ha, hv'⟩ := hreq f mem q p fuel r rfl hq hr
    refine ⟨v', ?_, hv'⟩
    unfold Asked
    dsimp only
    rw [hq]
    exact ⟨r.1, ha, rfl⟩
  · refine ⟨v, ?_, by rw [hfs]; exact hv⟩
    unfold Asked
    split
    · next f mem => rw [hno f mem rfl]
    · rfl

end Asked

end InaneOS.Kernel
