import InaneOS.Fs.Refine
import InaneOS.Kernel.Invariant

/-!
# The tree of the RAM file system, in the running system

`InaneOS.Fs.Refine` compares the file server with a tree, call by call and with nothing
mounted. Here the calls are system calls, of any programs and in any order, between key
interrupts, programs that end and volumes that are mounted and unmounted. What programs
are told is then what a `Shelf` tells them: the tree of `InaneOS.Fs.Reference` and
whether a volume stands in front of it.

With a volume in front the tree keeps still, and so does its current directory: after an
unmount it is there as it was. The tree speaks of names that fit a node, so a path with a
longer component is outside this comparison (`Request.Short`).
-/

namespace InaneOS.Kernel

open InaneOS.Lib
open InaneOS.Fat (Str)
open InaneOS.Fs
open InaneOS.Drivers
open InaneOS.Mem (enterProgram)

/-! ## The specification -/

structure Shelf where
  tree : Tree
  mounted : Bool

/-- What the tree answers to a request. -/
def Request.onTree (t : Tree) : Request → (Int × Str) × Tree
  | .call c => t.run c
  | .fread path cap => (t.fread path cap, t)

/-- A request and its answer. A volume in front answers as it likes; but there a directory is made
in no case. -/
def Shelf.Answers (v : Shelf) (q : Request) (r : Int × Str) (v' : Shelf) : Prop :=
  match q with
  | .call (.mountPart _) =>
    v'.tree = v.tree ∧
      (r = (fsOk, []) ∧ v'.mounted = true ∨ r = (fsBadpath, []) ∧ v'.mounted = v.mounted)
  | .call .unmount => v' = ⟨v.tree, false⟩ ∧ r = (0, [])
  | q =>
    if v.mounted then v' = v ∧ ∀ arg, q = .call (.mkdir arg) → r = (fsRo, [])
    else q.onTree v.tree = (r, v'.tree) ∧ v'.mounted = false

/-- No component of the request's path exceeds a name. -/
def Request.Short : Request → Prop
  | .call (.mkdir p) => Fs.Short p
  | .call (.fwrite p _) => Fs.Short p
  | .call (.chdir p) => Fs.Short p
  | .call (.listdir p _) => Fs.Short p
  | .call (.freadRam p _) => Fs.Short p
  | .fread p _ => Fs.Short p
  | _ => True

def Event.Short : Event → Prop
  | .call f mem => ∀ q p, request f mem = some (q, p) → q.Short
  | _ => True

/-! ## The tree behind a volume -/

theorem pathFrom_nodes {s s' : FS} (h : s'.nodes = s.nodes) : ∀ n i,
    pathFrom s' n i = pathFrom s n i
  | 0, _ => rfl
  | n + 1, i => by rw [pathFrom, pathFrom, h, pathFrom_nodes h n]

theorem sim_frame {s s' : FS} {t : Tree} (h : Sim s t) (hn : s'.nodes = s.nodes)
    (hc : s'.cwd = s.cwd) (hm : s'.mounted = false) : Sim s' t := by
  have hpath : ∀ i, pathOf s' i = pathOf s i := fun i => pathFrom_nodes hn i i
  refine ⟨h.inv.frame hn hc, hm, h.le, fun i hi => by rw [hn]; exact h.used i hi, ?_, ?_⟩
  · simp only [hpath, hn]
    exact h.items
  · rw [hpath, hc]
    exact h.cwd

/-- The state without the volume in front. -/
def behind (s : FS) : FS := { s with mounted := false }

/-- The state is that of the shelf. -/
structure Shelved (s : FS) (v : Shelf) : Prop where
  tree : Sim (behind s) v.tree
  mounted : v.mounted = s.mounted
  mounts : Mounts s

theorem Shelved.sim {s : FS} {v : Shelf} (h : Shelved s v) (hm : s.mounted = false) :
    Sim s v.tree := sim_frame h.tree rfl rfl hm

/-- With a volume in front, a request leaves the nodes alone. -/
theorem Request.run_behind {fuel : Nat} {q : Request} (hq : q.Plain) {s : FS}
    (hm : s.mounted = true) {r : (Int × Str) × FS} (h : q.run fuel s = some r) :
    (r.2.nodes = s.nodes ∧ r.2.cwd = s.cwd) ∧ ∀ arg, q = .call (.mkdir arg) → r.1 = (fsRo, []) := by
  have hfat : ∀ f : Fat.Vol, { s with fat := f }.nodes = s.nodes ∧
      { s with fat := f }.cwd = s.cwd :=
    fun _ => ⟨rfl, rfl⟩
  cases q with
  | fread path cap =>
    refine ⟨?_, fun arg he => absurd he (by simp)⟩
    rw [Request.run] at h
    split at h
    · obtain ⟨x, -, rfl⟩ := Option.map_eq_some_iff.mp h
      exact hfat _
    · rw [← Option.some.inj h]
      exact ⟨rfl, rfl⟩
  | call c =>
    cases c with
    | mkdir arg =>
      have hro : fsMkdir arg s = (fsRo, s) := by rw [fsMkdir, if_pos hm]
      rw [← Option.some.inj h]
      dsimp only
      rw [hro]
      exact ⟨⟨rfl, rfl⟩, fun _ _ => rfl⟩
    | fwrite path buf =>
      refine ⟨?_, fun arg he => absurd he (by simp)⟩
      obtain ⟨x, hx, rfl⟩ := Option.map_eq_some_iff.mp h
      rw [fsFwrite, if_pos hm] at hx
      split at hx
      · exact absurd hx (by simp)
      · rw [← Option.some.inj hx]
        exact hfat _
    | chdir path =>
      refine ⟨?_, fun arg he => absurd he (by simp)⟩
      obtain ⟨x, hx, rfl⟩ := Option.map_eq_some_iff.mp h
      rw [fsChdir, if_pos hm] at hx
      split at hx
      · exact absurd hx (by simp)
      · rw [← Option.some.inj hx]
        exact hfat _
    | listdir path cap =>
      refine ⟨?_, fun arg he => absurd he (by simp)⟩
      obtain ⟨x, hx, rfl⟩ := Option.map_eq_some_iff.mp h
      rw [fsListdir, if_pos hm] at hx
      split at hx
      · exact absurd hx (by simp)
      all_goals
      · rw [← Option.some.inj hx]
        exact hfat _
    | getcwd cap =>
      refine ⟨?_, fun arg he => absurd he (by simp)⟩
      rw [← Option.some.inj h]
      exact ⟨rfl, rfl⟩
    | freadRam path cap =>
      refine ⟨?_, fun arg he => absurd he (by simp)⟩
      rw [← Option.some.inj h]
      exact ⟨rfl, rfl⟩
    | mountPart idx => exact hq.elim
    | unmount => exact hq.elim

/-! ## One request -/

/-- A path of a request has come through `copy_str`. -/
theorem request_ram {f : SyscallFrame} {mem : Memory} {q : Request} {p : BitVec 64}
    (h : request f mem = some (q, p)) (hq : q.Plain) (hs : q.Short) :
    (∃ c, q = .call c ∧ c.Ram) ∨ ∃ path cap, q = .fread path cap ∧ Fs.Short path := by
  unfold request at h
  split at h
  · obtain ⟨path, hpath, he⟩ := Option.map_eq_some_iff.mp h
    obtain ⟨rfl, -⟩ := Prod.mk.inj he
    exact Or.inl ⟨_, rfl, (pathArg_spec hpath).1, hs⟩
  · obtain ⟨path, hpath, he⟩ := Option.map_eq_some_iff.mp h
    obtain ⟨rfl, -⟩ := Prod.mk.inj he
    exact Or.inl ⟨_, rfl, (pathArg_spec hpath).1, hs⟩
  · split at h
    · exact absurd h (by simp)
    · obtain ⟨path, hpath, he⟩ := Option.map_eq_some_iff.mp h
      obtain ⟨rfl, -⟩ := Prod.mk.inj he
      exact Or.inl ⟨_, rfl, (pathArg_spec hpath).1, hs⟩
  · split at h
    · exact absurd h (by simp)
    · obtain ⟨rfl, -⟩ := Prod.mk.inj (Option.some.inj h)
      exact Or.inl ⟨_, rfl, trivial⟩
  · obtain ⟨rfl, -⟩ := Prod.mk.inj (Option.some.inj h)
    split at hq <;> exact hq.elim
  · split at h
    · exact absurd h (by simp)
    · obtain ⟨path, -, he⟩ := Option.map_eq_some_iff.mp h
      obtain ⟨rfl, -⟩ := Prod.mk.inj he
      exact Or.inr ⟨_, _, rfl, hs⟩
  · split at h
    · exact absurd h (by simp)
    · obtain ⟨path, hpath, he⟩ := Option.map_eq_some_iff.mp h
      obtain ⟨rfl, -⟩ := Prod.mk.inj he
      exact Or.inl ⟨_, rfl, (pathArg_spec hpath).1, hs⟩
  · exact absurd h (by simp)

/-- A request to the RAM file system is answered by the tree. -/
theorem Request.run_onTree {f : SyscallFrame} {mem : Memory} {q : Request} {p : BitVec 64}
    (hq : request f mem = some (q, p)) (hplain : q.Plain) (hshort : q.Short) {fuel : Nat} {s : FS}
    {t : Tree} (hsim : Sim s t) (hm : Mounts s) {r : (Int × Str) × FS}
    (h : q.run fuel s = some r) : (q.onTree t).1 = r.1 ∧ Sim r.2 (q.onTree t).2 := by
  rcases request_ram hq hplain hshort with ⟨c, rfl, hc⟩ | ⟨path, cap, rfl, hs⟩
  · obtain ⟨s', hrun, hsim'⟩ := run_sim hsim fuel hc
    have hsame : (Request.call c).run fuel s = c.run fuel s := by
      cases c with
      | listdir path cap =>
        show (fsListdir fuel path cap s).map _ = fsListdir fuel path cap s
        cases fsListdir fuel path cap s with
        | none => rfl
        | some x =>
          simp only [listdirOut, if_neg hsim.not_mounted]
          rfl
      | _ => rfl
    rw [hsame, hrun] at h
    rw [← Option.some.inj h]
    exact ⟨rfl, hsim'⟩
  · have hno : ¬ Fat.fatMounted s.fat = true := by
      show ¬ s.fat.isMounted = true
      rw [← hm.agree]
      exact hsim.not_mounted
    rw [Request.run, if_neg hno] at h
    rw [← Option.some.inj h]
    exact ⟨(fsFreadRam_sim hsim cap hs).symm, hsim⟩

/-- A request that is neither a mount nor an unmount. -/
theorem answers_plain {q : Request} (hq : q.Plain) {v v' : Shelf} {r : Int × Str} :
    v.Answers q r v' ↔
      if v.mounted then v' = v ∧ ∀ arg, q = .call (.mkdir arg) → r = (fsRo, [])
      else q.onTree v.tree = (r, v'.tree) ∧ v'.mounted = false := by
  unfold Shelf.Answers
  split
  · exact hq.elim
  · exact hq.elim
  · exact Iff.rfl

/-- **One request, answered.** -/
theorem Shelved.request {f : SyscallFrame} {mem : Memory} {q : Request} {p : BitVec 64}
    (hq : Kernel.request f mem = some (q, p)) (hshort : q.Short) {fuel : Nat} {s : FS} {v : Shelf}
    (hv : Shelved s v) {r : (Int × Str) × FS} (h : q.run fuel s = some r) :
    ∃ v', v.Answers q r.1 v' ∧ Shelved r.2 v' := by
  have hm := (Request.run_mounts hv.mounts h).1
  by_cases hplain : q.Plain
  · have hf := Request.run_framed hplain h
    cases hmnt : s.mounted with
    | true =>
      obtain ⟨⟨hn, hc⟩, hro⟩ := Request.run_behind hplain hmnt h
      refine ⟨v, (answers_plain hplain).mpr ?_, sim_frame hv.tree hn hc rfl,
        hv.mounted.trans hf.mounted.symm, hm⟩
      rw [if_pos (hv.mounted.trans hmnt)]
      exact ⟨rfl, hro⟩
    | false =>
      obtain ⟨hret, hsim⟩ := Request.run_onTree hq hplain hshort (hv.sim hmnt) hv.mounts h
      refine ⟨⟨(q.onTree v.tree).2, false⟩, (answers_plain hplain).mpr ?_,
        sim_frame hsim rfl rfl rfl, ?_, hm⟩
      · rw [hv.mounted, hmnt, if_neg (by simp)]
        exact ⟨Prod.ext hret rfl, rfl⟩
      · rw [hf.mounted, hmnt]
  · cases q with
    | fread path cap => exact absurd trivial hplain
    | call c =>
      cases c with
      | unmount =>
        rw [← Option.some.inj h]
        exact ⟨⟨v.tree, false⟩, ⟨rfl, rfl⟩, sim_frame hv.tree rfl rfl rfl, rfl,
          by rw [← Option.some.inj h] at hm; exact hm⟩
      | mountPart idx =>
        have hr : r = (((fsMountPart idx s).1, []), (fsMountPart idx s).2) :=
          (Option.some.inj h).symm
        subst hr
        dsimp only at hm ⊢
        unfold fsMountPart at hm ⊢
        cases hp : partGet idx s with
        | none => exact ⟨v, ⟨rfl, Or.inr ⟨rfl, rfl⟩⟩, hv⟩
        | some part =>
          rw [hp] at hm
          dsimp only at hm ⊢
          rcases hx : Fat.fatMount part.lba s.fat with ⟨_ | _, f⟩
          · rw [hx] at hm
            exact ⟨v, ⟨rfl, Or.inr ⟨rfl, rfl⟩⟩, sim_frame hv.tree rfl rfl rfl, hv.mounted, hm⟩
          · rw [hx] at hm
            exact ⟨⟨v.tree, true⟩, ⟨rfl, Or.inl ⟨rfl, rfl⟩⟩, sim_frame hv.tree rfl rfl rfl, rfl, hm⟩
      | _ => exact absurd trivial hplain

/-! ## Runs -/

theorem bootFs_shelved (dev : Ata) :
    Shelved (bootFs dev) ⟨Tree.init, (bootFs dev).mounted⟩ := by
  have hinit : Sim (fsInit { bareFS with fat := plainVol (diskOf dev) }) Tree.init :=
    fsInit_sim rfl
  have hkeeps : (bootFs dev).nodes = (fsInit { bareFS with fat := plainVol (diskOf dev) }).nodes ∧
      (bootFs dev).cwd = (fsInit { bareFS with fat := plainVol (diskOf dev) }).cwd := by
    unfold bootFs fsMountPart
    dsimp only
    split
    · split
      · exact ⟨rfl, rfl⟩
      · split <;> exact ⟨rfl, rfl⟩
    · exact ⟨rfl, rfl⟩
  exact ⟨sim_frame hinit hkeeps.1 hkeeps.2 rfl, rfl, (bootFs_inv dev).2.1⟩

/-- **The running system refines the tree.** In any run from the start, with volumes that come and
go, every request of a program is answered as the shelf does: by the tree, or by the volume in
front of it, behind which the tree stays as it is. -/
theorem system_refines_tree {h : Hardware} {rs : List (Event × Reply)} {s : Sys}
    (hrun : Allows Steps (kernelMain h) rs s) (hshort : ∀ r ∈ rs, r.1.Short) :
    ∃ v, Allows (Asked Shelf.Answers) ⟨Tree.init, (bootFs h.dev).mounted⟩ rs v ∧
      Shelved s.k.fs v := by
  have hstart : Shelved (kernelMain h).k.fs ⟨Tree.init, (bootFs h.dev).mounted⟩ := by
    rw [kernelMain_fs]
    exact bootFs_shelved h.dev
  exact (hrun.inputs hshort).simulate (R := fun s v => Shelved s.k.fs v)
    (fun _ _ _ _ _ hv hs => hs.2.asked hv fun f mem q p _ _ he hq hr => by
      subst he
      exact hv.request hq (hs.1 q p hq) hr) hstart

/-- Memory with the string `a` at `0x1000`. -/
def memA : Memory := fun p => if p = 0x1000 then 97 else 0

/-- A directory `a` is made, and the current directory asked for. -/
def madeA : List Event :=
  [.call { plainFrame 8 with rdi := 0x1000 } memA,
    .call { plainFrame 10 with rdi := 0x2000, rsi := 16 } memA]

theorem madeA_requests :
    request { plainFrame 8 with rdi := 0x1000 } memA = some (.call (.mkdir [97]), 0) ∧
      request { plainFrame 10 with rdi := 0x2000, rsi := 16 } memA =
        some (.call (.getcwd 16), 0x2000) :=
  ⟨rfl, rfl⟩

theorem madeA_short : ∀ e ∈ madeA, e.Short := by
  obtain ⟨hmkdir, hgetcwd⟩ := madeA_requests
  intro e he
  rcases List.mem_cons.mp he with rfl | he
  · intro q p hq
    rw [hmkdir] at hq
    obtain ⟨rfl, -⟩ := Prod.mk.inj (Option.some.inj hq)
    show Fs.Short [97]
    unfold Fs.Short
    decide
  · rw [List.mem_singleton.mp he]
    intro q p hq
    rw [hgetcwd] at hq
    obtain ⟨rfl, -⟩ := Prod.mk.inj (Option.some.inj hq)
    trivial

theorem system_refines_tree_sample : ∃ rs s v, rs.map Prod.fst = madeA ∧
    Allows Steps (kernelMain sampleHardware) rs s ∧
      Allows (Asked Shelf.Answers) ⟨Tree.init, (bootFs sampleHardware.dev).mounted⟩ rs v ∧
        Shelved s.k.fs v := by
  obtain ⟨m, hm⟩ := sample_start
  obtain ⟨hmkdir, hgetcwd⟩ := madeA_requests
  have hrun : ∃ rs s, rs.map Prod.fst = madeA ∧ Allows Steps (kernelMain sampleHardware) rs s := by
    rw [hm]
    have hfirst :=
      @steps_request 0 _ _ { bootStatics sampleHardware with mach := m } _ _ hmkdir _ rfl
    exact ⟨_, _, rfl, .cons hfirst (.cons (@steps_request 0 _ _ _ _ _ hgetcwd _ rfl) (.nil _))⟩
  obtain ⟨rs, s, hrs, hs⟩ := hrun
  have hshort : ∀ r ∈ rs, r.1.Short := fun r hr =>
    madeA_short r.1 (hrs ▸ List.mem_map_of_mem hr)
  obtain ⟨v, hv, hsv⟩ := system_refines_tree hs hshort
  exact ⟨rs, s, v, hrs, hs, hv, hsv⟩

end InaneOS.Kernel
