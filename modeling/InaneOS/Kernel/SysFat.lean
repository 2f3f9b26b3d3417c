import InaneOS.Fat.Files
import InaneOS.Kernel.Invariant

/-!
# A mounted volume, in the running system

With a sound volume mounted, what programs are told is what its `Files` say: the
catalog, as the calls since the mount have changed it, and the current directory. The
order in which programs come and go, the keys and the other calls do not enter into it,
and every request is answered in a bounded number of rounds.

A run is compared as long as nothing is mounted or unmounted and `cwd_path` leaves room
for the slash that `abspath` puts behind it (`Stays`): with 255 bytes in it `abspath` would
write past its buffer, which `InaneOS.Fat.PathBuf` is about.
-/

namespace InaneOS.Kernel

open InaneOS.Lib
open InaneOS.Fat (Str Vol Sound Catalog Disk Through Inside Sector slash)
open InaneOS.Fs

/-! ## The specification -/

def sign (ok : Bool) : Int × Str := (if ok then 0 else -1, [])

def readAnswer (x : Option Nat × Str) : Int × Str :=
  (match x.1 with | none => -1 | some n => n, x.2)

def listAnswer (out : Option Str) : Int × Str :=
  (match out with | none => -1 | some o => o.length, out.getD [])

/-- `fs_getcwd`, by the text of the current directory. -/
def cwdAnswer (cwd : Str) (cap : Nat) : Int × Str :=
  if cwd.length + 1 > cap then (-1, []) else (cwd.length, cwd ++ [0])

/-- A request, answered from the catalog. -/
def FilesAnswer (v : Fat.Files) (q : Request) (r : Int × Str) (v' : Fat.Files) : Prop :=
  match q with
  | .fread path cap => v' = v ∧ r = readAnswer (v.read path cap)
  | .call (.fwrite path buf) =>
    r = sign true ∧ v.Writes path buf v' ∨ r = sign false ∧ v' = v
  | .call (.chdir path) =>
    r = sign (v.chdir path).isSome ∧ v' = { v with cwd := (v.chdir path).getD v.cwd }
  | .call (.listdir path cap) => v' = v ∧ ∃ out, v.Lists path cap out ∧ r = listAnswer out
  | .call (.getcwd cap) => v' = v ∧ r = cwdAnswer v.cwd cap
  | .call (.mkdir _) => v' = v ∧ r = (fsRo, [])
  | _ => False

/-- The event mounts and unmounts nothing. -/
def Event.Stays : Event → Prop
  | .call f mem => ∀ q p, request f mem = some (q, p) → q.Plain
  | _ => True

/-- The steps that are compared. -/
def Stays (s : Sys) (e : Event) (o : Reply) (s' : Sys) : Prop :=
  Steps s e o s' ∧ e.Stays ∧ s.k.fs.fat.cwdPath.length ≤ 254

/-! ## The volume behind the file server -/

/-- A volume is mounted, and this is what it holds. -/
structure Served (s : FS) (v : Fat.Files) : Prop where
  mounted : s.mounted = true
  agree : s.fat.isMounted = true
  sound : Sound s.fat
  files : s.fat.files = v

theorem Served.fat {s : FS} {v : Fat.Files} (h : Served s v) {f : Vol} (hf : Sound f)
    (hm : f.isMounted = s.fat.isMounted) : Served { s with fat := f } f.files :=
  ⟨h.mounted, hm.trans h.agree, hf, rfl⟩

theorem Served.looked {s : FS} {v : Fat.Files} (h : Served s v) (sec : Sector) :
    Served { s with fat := { s.fat with sec := sec } } v :=
  ⟨h.mounted, h.agree, ⟨h.sound.tree, h.sound.plain, h.sound.dir⟩, h.files⟩

/-- The requests a system call can make of a mounted volume. -/
inductive OnVolume : Request → Prop
  | fread (path : Str) (cap : Nat) : OnVolume (.fread path cap)
  | fwrite (path buf : Str) : buf.length < 2 ^ 32 → OnVolume (.call (.fwrite path buf))
  | chdir (path : Str) : OnVolume (.call (.chdir path))
  | listdir (path : Str) (cap : Nat) : OnVolume (.call (.listdir path cap))
  | getcwd (cap : Nat) : OnVolume (.call (.getcwd cap))
  | mkdir (path : Str) : OnVolume (.call (.mkdir path))

theorem request_onVolume {f : SyscallFrame} {mem : Memory} {q : Request} {p : BitVec 64}
    (h : request f mem = some (q, p)) (hq : q.Plain) : OnVolume q := by
  unfold request at h
  split at h
  · obtain ⟨path, -, he⟩ := Option.map_eq_some_iff.mp h
    obtain ⟨rfl, -⟩ := Prod.mk.inj he
    exact .chdir path
  · obtain ⟨path, -, he⟩ := Option.map_eq_some_iff.mp h
    obtain ⟨rfl, -⟩ := Prod.mk.inj he
    exact .mkdir path
  · split at h
    · exact absurd h (by simp)
    · obtain ⟨path, -, he⟩ := Option.map_eq_some_iff.mp h
      obtain ⟨rfl, -⟩ := Prod.mk.inj he
      exact .listdir path _
  · split at h
    · exact absurd h (by simp)
    · obtain ⟨rfl, -⟩ := Prod.mk.inj (Option.some.inj h)
      exact .getcwd _
  · obtain ⟨rfl, -⟩ := Prod.mk.inj (Option.some.inj h)
    split at hq <;> exact hq.elim
  · split at h
    · exact absurd h (by simp)
    · obtain ⟨path, -, he⟩ := Option.map_eq_some_iff.mp h
      obtain ⟨rfl, -⟩ := Prod.mk.inj he
      exact .fread path _
  · split at h
    · exact absurd h (by simp)
    · next hlen =>
      obtain ⟨path, -, he⟩ := Option.map_eq_some_iff.mp h
      obtain ⟨rfl, -⟩ := Prod.mk.inj he
      refine .fwrite path _ ?_
      rw [bytesAt, List.length_map, List.length_range]
      unfold fileMax at hlen
      omega
  · exact absurd h (by simp)

/-- What the disk may look like on the way through a request: as before it, or as after some
answer. -/
def OnTheWay (v : Fat.Files) (q : Request) (c : Catalog) : Prop :=
  c = v.catalog ∨ ∃ r v', FilesAnswer v q r v' ∧ c = v'.catalog

/-- **One request**: it is answered, and as the catalog says. -/
theorem Served.request {q : Request} (hq : OnVolume q) {s : FS} {v : Fat.Files} (hv : Served s v)
    {fuel : Nat} (hfuel : s.fat.fatSz * 128 ≤ fuel) :
    ∃ r v' ws, q.run fuel s = some r ∧ FilesAnswer v q r.1 v' ∧ Served r.2 v' ∧
      Through s.fat r.2.fat ws (OnTheWay v q) := by
  have hsound := hv.sound
  have ht := hsound.tree
  have hread : Fat.fatMounted s.fat = true := hv.agree
  obtain rfl := hv.files
  have hstill : ∀ {f : Vol}, f.disk = s.fat.disk → f.toGeo = s.fat.toGeo →
      Through s.fat f [] (OnTheWay s.fat.files q) := fun hd hg =>
    hsound.through hd hg (Or.inl rfl)
  cases hq with
  | fread path cap =>
    obtain ⟨sec, hrun⟩ := Fat.fatRead_files hfuel ht path cap
    refine ⟨(readAnswer (s.fat.files.read path cap), { s with fat := { s.fat with sec := sec } }),
      s.fat.files, [], ?_, ⟨rfl, rfl⟩, hv.looked sec, hstill rfl rfl⟩
    rw [Request.run, if_pos hread, hrun]
    rfl
  | fwrite path buf hlen =>
    obtain ⟨ok, f', ws, hrun, hf', hres, hthrough⟩ := Fat.fatWrite_files hfuel hsound path hlen
    have hm := moved_isMounted (Fat.fatWrite_moved hrun)
    refine ⟨(sign ok, { s with fat := f' }), f'.files, ws, ?_, ?_, hv.fat hf' hm,
      hthrough.disk, hthrough.geo, hthrough.inside, fun k => ⟨(hthrough.cuts k).1, ?_⟩⟩
    · show (fsFwrite fuel path buf s).map _ = _
      rw [fsFwrite, if_pos hv.mounted, hrun]
      rfl
    · rcases hres with ⟨rfl, hw⟩ | ⟨rfl, hsame⟩
      · exact Or.inl ⟨rfl, hw⟩
      · exact Or.inr ⟨rfl, hsame⟩
    · exact (hthrough.cuts k).2.symm.imp_right fun hw => ⟨sign true, _, Or.inl ⟨rfl, hw⟩, rfl⟩
  | chdir path =>
    obtain ⟨f', hrun, hf', hd, hg, hfiles⟩ := Fat.fatChdir_files hfuel hsound path
    refine ⟨(sign (s.fat.files.chdir path).isSome, { s with fat := f' }), f'.files, [], ?_,
      ⟨rfl, hfiles⟩, hv.fat hf' (fatChdir_isMounted hrun), hstill hd hg⟩
    show (fsChdir fuel path s).map _ = _
    rw [fsChdir, if_pos hv.mounted, hrun]
    rfl
  | listdir path cap =>
    obtain ⟨out, sec, hrun, hlists, hout⟩ := Fat.fatList_files hsound hfuel path cap
    refine ⟨(listAnswer out, { s with fat := { s.fat with sec := sec } }), s.fat.files, [], ?_,
      ⟨rfl, out, hlists, rfl⟩, hv.looked sec, hstill rfl rfl⟩
    show (fsListdir fuel path cap s).map _ = _
    rw [fsListdir, if_pos hv.mounted, hrun]
    unfold listdirOut
    simp only [if_pos hv.mounted, hout]
    cases out <;> rfl
  | getcwd cap =>
    refine ⟨_, s.fat.files, [], rfl, ⟨rfl, ?_⟩, hv, hstill rfl rfl⟩
    dsimp only
    rw [fsGetcwd, if_pos hv.mounted, Fat.fatGetcwd]
    show _ = cwdAnswer s.fat.cwdPath cap
    unfold cwdAnswer
    by_cases hlen : s.fat.cwdPath.length + 1 > cap
    · rw [if_pos hlen, if_pos hlen]
    · rw [if_neg hlen, if_neg hlen]
      dsimp only
      rw [List.length_append, List.length_singleton]
      refine Prod.ext ?_ rfl
      push_cast
      omega
  | mkdir path =>
    have hro : fsMkdir path s = (fsRo, s) := by rw [fsMkdir, if_pos hv.mounted]
    refine ⟨((fsRo, []), s), s.fat.files, [], ?_, ⟨rfl, rfl⟩, hv, hstill rfl rfl⟩
    rw [Request.run, Fs.Call.run, hro]
    simp

/-! ## Runs -/

/-- The rounds do not matter to a request that is answered. -/
theorem Request.run_unique {q : Request} {s : FS} {fuel fuel' : Nat} {r r' : (Int × Str) × FS}
    (h : q.run fuel s = some r) (h' : q.run fuel' s = some r') : r = r' :=
  Option.some.inj ((Request.run_mono (Nat.le_max_left fuel fuel') h).symm.trans
    (Request.run_mono (Nat.le_max_right fuel fuel') h'))

theorem Served.step {s s' : Sys} {e : Event} {o : Reply} {v : Fat.Files} (hv : Served s.k.fs v)
    (hs : Stays s e o s') : ∃ v', Asked FilesAnswer v e o v' ∧ Served s'.k.fs v' := by
  obtain ⟨hs, hstays, -⟩ := hs
  refine hs.asked hv fun f mem q p fuel r he hq hr => ?_
  subst he
  obtain ⟨r', v', -, hr', ha, hv', -⟩ :=
    hv.request (request_onVolume hq (hstays q p hq)) (Nat.le_refl _)
  obtain rfl := Request.run_unique hr hr'
  exact ⟨v', ha, hv'⟩

/-- **A mounted volume is a catalog.** From any state with a sound volume mounted, whatever
programs come and go: all requests are answered from the catalog and the current directory, and
only a write and a change of directory change these; and the next request will be answered too. -/
theorem system_refines_catalog {s s' : Sys} {rs : List (Event × Reply)}
    (hm : s.k.fs.mounted = true) (hf : s.k.fs.fat.isMounted = true) (hok : Sound s.k.fs.fat)
    (hrun : Allows Stays s rs s') :
    ∃ v, Allows (Asked FilesAnswer) s.k.fs.fat.files rs v ∧ s'.k.fs.fat.files = v ∧
      Sound s'.k.fs.fat ∧
      ∀ f mem q p, s'.cpu = .user → request f mem = some (q, p) → q.Plain →
        s'.k.fs.fat.cwdPath.length ≤ 254 → ∃ o s'', Stays s' (.call f mem) o s'' := by
  obtain ⟨v, hv, hserved⟩ := hrun.simulate (R := fun s v => Served s.k.fs v)
    (fun _ _ _ _ _ hv hs => hv.step hs) (⟨hm, hf, hok, rfl⟩ : Served s.k.fs s.k.fs.fat.files)
  refine ⟨v, hv, hserved.files, hserved.sound, fun f mem q p hcpu hq hplain hcwd => ?_⟩
  obtain ⟨r, v', -, hr, -⟩ := hserved.request (request_onVolume hq hplain) (Nat.le_refl _)
  obtain ⟨k, cpu⟩ := s'
  obtain rfl : cpu = .user := hcpu
  refine ⟨_, _, steps_request hq hr, fun q' p' hq' => ?_, hcwd⟩
  rw [hq] at hq'
  obtain ⟨rfl, -⟩ := Prod.mk.inj (Option.some.inj hq')
  exact hplain

/-! ## A small volume -/

/-- The sample volume is mounted, and a program runs. -/
def volSys : Sys where
  k :=
    { fs := { bareFS with fat := Fat.sampleMounted, mounted := true, mountedIdx := 0 }
      term := Drivers.Term.init (fun _ => 0) 0
      kbd := (Drivers.History.init fun _ => 0).kbd
      mods := []
      mach := Mem.neighbours.mach }
  cpu := .user

theorem volSys_served : Served volSys.k.fs Fat.sampleMounted.files :=
  ⟨rfl, fatMount_mounted Fat.sampleMounted_eq,
    Sound.mounted Fat.sampleMounted_eq Fat.sampleVol_certified.wellFormed.tree, rfl⟩

/-- `/G` at `0x1000` and two bytes at `0x2000`. -/
def memG : Memory := fun p =>
  if p = 0x1000 then 47 else if p = 0x1001 then 71 else if p = 0x2000 then 1
  else if p = 0x2001 then 2 else 0

def writeG : SyscallFrame := { plainFrame 19 with rdi := 0x1000, rsi := 0x2000, rdx := 2 }

def readG : SyscallFrame := { plainFrame 17 with rdi := 0x1000, rsi := 0x3000, rdx := 8 }

theorem request_writeG : request writeG memG = some (.call (.fwrite [slash, 71] [1, 2]), 0) := rfl

theorem request_readG : request readG memG = some (.fread [slash, 71] 8, 0x3000) := rfl

/-- A step for a request that is answered. -/
theorem Served.stays {s : Sys} {v : Fat.Files} (hv : Served s.k.fs v) (hcpu : s.cpu = .user)
    (hcwd : v.cwd.length ≤ 254) {f : SyscallFrame} {mem : Memory} {q : Request} {p : BitVec 64}
    (hq : Kernel.request f mem = some (q, p)) (hplain : q.Plain) :
    ∃ r v' s', Stays s (.call f mem) (.back (BitVec.ofInt 64 r.1) (store mem p r.2)) s' ∧
      FilesAnswer v q r v' ∧ Served s'.k.fs v' ∧ s'.cpu = .user := by
  have hcwd' : s.k.fs.fat.cwdPath.length ≤ 254 := by
    rw [← hv.files] at hcwd
    exact hcwd
  obtain ⟨r, v', -, hr, ha, hv', -⟩ := hv.request (request_onVolume hq hplain) (Nat.le_refl _)
  obtain ⟨k, cpu⟩ := s
  obtain rfl : cpu = .user := hcpu
  refine ⟨r.1, v', _, ⟨steps_request hq hr, fun q' p' hq' => ?_, hcwd'⟩, ha, hv', rfl⟩
  rw [hq] at hq'
  obtain ⟨rfl, -⟩ := Prod.mk.inj (Option.some.inj hq')
  exact hplain

theorem volSys_run : ∃ o₁ o₂ s, Allows Stays volSys
    [(.call writeG memG, o₁), (.call readG memG, o₂)] s := by
  have hcwd : Fat.sampleMounted.files.cwd.length ≤ 254 := by
    rw [show Fat.sampleMounted.files.cwd = [slash] from (Fat.fatMount_cwd Fat.sampleMounted_eq).1]
    decide
  obtain ⟨r, v, s, hs, ha, hv, hcpu⟩ := volSys_served.stays rfl hcwd request_writeG trivial
  have hcwd' : v.cwd.length ≤ 254 := by
    rcases ha with ⟨-, par, leaf, -, -, -, -, -, -, rfl⟩ | ⟨-, rfl⟩ <;> exact hcwd
  obtain ⟨r', v', s', hs', -, -, -⟩ := hv.stays hcpu hcwd' request_readG trivial
  exact ⟨_, _, s', .cons hs (.cons hs' (.nil _))⟩

theorem system_refines_catalog_sample : ∃ o₁ o₂ s v,
    Allows Stays volSys [(.call writeG memG, o₁), (.call readG memG, o₂)] s ∧
      Allows (Asked FilesAnswer) Fat.sampleMounted.files
        [(.call writeG memG, o₁), (.call readG memG, o₂)] v ∧ s.k.fs.fat.files = v := by
  obtain ⟨o₁, o₂, s, hs⟩ := volSys_run
  obtain ⟨v, hv, hsv, -⟩ := system_refines_catalog volSys_served.mounted volSys_served.agree
    volSys_served.sound hs
  exact ⟨o₁, o₂, s, v, hs, hv, hsv⟩

end InaneOS.Kernel
