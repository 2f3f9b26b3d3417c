import InaneOS.Fat.Guarantees
import InaneOS.Kernel.Durable
import Mathlib.Logic.Relation

/-!
# Power loss and the next boot

The system boots from a drive whose first partition holds a sound volume, runs for a
while, and the power goes: between two events, or between two sector writes of a call.
What is left is the medium of the drive. Booted again, the kernel mounts the volume, and
its catalog is the one before the event or one that the event was allowed to leave
(`reboot_oldOrNew`). A file that was saved before is still there (`saved_survives`).

The drive is the one of `InaneOS.Drivers.Ata`, prompt enough for the driver, and each boot
begins with `part_scan` on it. That calls of the driver act on the medium as `ide_read` and
`ide_write` do on a `Disk` is `ideRun_refines`.
-/

namespace InaneOS.Kernel

open InaneOS.Lib
open InaneOS.Fat (Str Vol Sector Disk Tree Sound Catalog Kind Through Inside fatMount capitals comps
  abspath slash)
open InaneOS.Fs
open InaneOS.Drivers

/-! ## Booting from a drive -/

/-- What `ide_init` and `part_scan` need of a drive. -/
structure Healthy (a : Ata) : Prop where
  idle : a.busy = 0
  prompt : Prompt a
  size : a.size ≤ 2 ^ 48
  usable : Usable a

/-- The first partition holds the volume `f`, which begins behind its boot sector. -/
structure Carries (a : Ata) (f : Vol) : Prop where
  healthy : Healthy a
  mounts : ∃ p ps, tableOf (a.medium 0) = p :: ps ∧
    fatMount p.lba (plainVol (diskOf a)) = (true, f) ∧ p.lba < f.fatStart
  tree : Tree f.toGeo f.disk

theorem Healthy.parts {a : Ata} (h : Healthy a) :
    (partScan ataBus ⟨0, false, a⟩).2.1 = tableOf (a.medium 0) :=
  ((partScan_spec (s := ⟨0, false, a⟩) h.idle h.prompt h.size).1 h.usable).2.1

theorem fsMountPart_first {s : FS} {p : Part} {ps : List Part} {f : Vol} (hp : s.parts = p :: ps)
    (hm : fatMount p.lba s.fat = (true, f)) :
    fsMountPart 0 s = (fsOk, { s with fat := f, mounted := true, mountedIdx := 0 }) := by
  have hget : partGet 0 s = some p := by
    unfold partGet
    rw [hp]
    rfl
  unfold fsMountPart
  rw [hget]
  dsimp only
  rw [hm]

/-- **The boot** mounts the volume. -/
theorem Carries.boot {a : Ata} {f : Vol} (h : Carries a f) :
    (bootFs a).fat = f ∧ Served (bootFs a) f.files := by
  obtain ⟨p, ps, htable, hmount, -⟩ := h.mounts
  have hparts := h.healthy.parts.trans htable
  have hboot : bootFs a = { fsInit { bareFS with fat := f } with
      parts := p :: ps, mounted := true, mountedIdx := 0 } := by
    unfold bootFs
    dsimp only
    rw [hparts, if_pos (show (p :: ps).length > 0 from Nat.succ_pos _),
      fsMountPart_first rfl hmount]
    rfl
  rw [hboot]
  exact ⟨rfl, rfl, fatMount_mounted hmount, Sound.mounted hmount h.tree, rfl⟩

/-- A volume that was just mounted is at its root. -/
theorem Carries.cwd {a : Ata} {f : Vol} (h : Carries a f) : f.files.cwd = [slash] := by
  obtain ⟨p, ps, -, hmount, -⟩ := h.mounts
  exact (Fat.fatMount_cwd hmount).1

theorem Carries.served {h : Hardware} {f : Vol} (hf : Carries h.dev f) :
    Served (kernelMain h).k.fs f.files := by
  rw [kernelMain_fs]
  exact hf.boot.2

/-- A volume is what is on the disk from the start of its tables on. -/
theorem untouched_behind {g : Fat.Geo} {d d' : Disk} (ht : Tree g d) (hdrive : d'.drive = d.drive)
    (hdata : ∀ l, g.fatStart ≤ l → d'.data l = d.data l) : Fat.Untouched g d d' := by
  have hlink : ∀ c, Fat.link g d' c = Fat.link g d c := fun c => by
    unfold Fat.link Fat.fatEntry
    rw [hdata _ (Fat.le_fatLba g 0 c)]
  refine ⟨hdrive, fun r cs _ hcs l hl => hdata l ?_, fun r cs _ hcs =>
    ⟨hcs.1.congr fun x _ => hlink x, hcs.2⟩⟩
  obtain ⟨x, hx, hpos⟩ := Fat.mem_secsOf.mp hl
  have hge := Fat.posData_ge ht.geo (hcs.2 x hx) hpos
  have hstart := ht.geo.data_eq
  omega

/-- **The next boot**, after writes inside the volume that left it sound. -/
theorem Carries.reboot {a a' : Ata} {f : Vol} (h : Carries a f) {ws : List (Nat × Sector)}
    (hin : ∀ w ∈ ws, Inside f.toGeo w.1) (ht : Tree f.toGeo (f.disk.crash ws)) (ha : Healthy a')
    (hdrive : (diskOf a').drive = (diskOf a).drive) (hmedium : a'.medium = (f.disk.crash ws).data) :
    ∃ f', Carries a' f' ∧ f'.files = ⟨Fat.catalog f.toGeo (f.disk.crash ws), [slash]⟩ := by
  obtain ⟨p, ps, htable, hmount, hbefore⟩ := h.mounts
  obtain ⟨f₁, hmount₁, -, hdisk, -⟩ := Fat.fatMount_congr hmount rfl rfl
  obtain rfl : f₁ = f := (Prod.mk.inj (hmount₁.symm.trans hmount)).2
  have hdisk : f₁.disk = diskOf a := hdisk
  -- the sectors before the volume are as they were
  have hsame : ∀ l < f₁.fatStart, a'.medium l = a.medium l := by
    intro l hl
    rw [hmedium, Fat.Disk.crash_data_other, hdisk]
    · rfl
    · rintro w hw rfl
      exact absurd (hin w hw).1 (Nat.not_le.mpr hl)
  obtain ⟨f', hmount', hgeo, hdisk', hcwd⟩ := Fat.fatMount_congr (m := plainVol (diskOf a')) hmount
    hdrive (hsame p.lba hbefore)
  have hdisk' : f'.disk = diskOf a' := hdisk'
  -- the disk differs from what was left in its log only
  have hu : Fat.Untouched f₁.toGeo (f₁.disk.crash ws) f'.disk := by
    rw [hdisk']
    refine untouched_behind ht ?_ fun l _ => congrFun hmedium l
    rw [hdrive, Fat.Disk.crash_drive, hdisk]
  refine ⟨f', ⟨ha, ⟨p, ps, ?_, hmount', ?_⟩, ?_⟩, ?_⟩
  · rw [hsame 0 (by omega), htable]
  · rw [hgeo]
    exact hbefore
  · rw [hgeo]
    exact hu.tree ht
  · unfold Vol.files
    rw [hgeo, hcwd, Fat.Old.catalog ⟨hu.tree ht, hu.view ht⟩ ht]

/-! ## One session -/

/-- The catalogs the disk goes through during an event: the one before it, and those of what the
event may answer. -/
def OnEvent (v : Fat.Files) (e : Event) (c : Catalog) : Prop :=
  c = v.catalog ∨ ∃ o v', Asked FilesAnswer v e o v' ∧ c = v'.catalog

/-- One event, with what it does to the disk on its way. -/
theorem Served.way {s s' : Sys} {e : Event} {o : Reply} {v : Fat.Files} (hv : Served s.k.fs v)
    (hs : Stays s e o s') :
    ∃ v' ws, Served s'.k.fs v' ∧ Through s.k.fs.fat s'.k.fs.fat ws (OnEvent v e) := by
  obtain ⟨hs, hstays, -⟩ := hs
  rcases hs.fs with ⟨f, mem, q, p, fuel, r, rfl, hq, hr, -, rfl⟩ | ⟨hfs, -⟩
  · obtain ⟨r', v', ws, hr', -, hv', hthrough⟩ :=
      hv.request (request_onVolume hq (hstays q p hq)) (Nat.le_refl _)
    obtain rfl := Request.run_unique hr hr'
    refine ⟨v', ws, hv', hthrough.disk, hthrough.geo, hthrough.inside, fun k => ?_⟩
    obtain ⟨ht, hway⟩ := hthrough.cuts k
    refine ⟨ht, hway.imp_right ?_⟩
    rintro ⟨a, w, ha, hw⟩
    refine ⟨.back (BitVec.ofInt 64 a.1) (store mem p a.2), w, ?_, hw⟩
    unfold Asked
    dsimp only
    rw [hq]
    exact ⟨a, ha, rfl⟩
  · refine ⟨v, [], by rwa [hfs], ?_⟩
    refine hv.sound.through (by rw [hfs]) (by rw [hfs]) (Or.inl ?_)
    rw [hv.files]

/-- The disk is what writes inside the volume `f` have left of it. -/
structure Since (f : Vol) (s : Sys) : Prop where
  served : Served s.k.fs s.k.fs.fat.files
  geo : s.k.fs.fat.toGeo = f.toGeo
  disk : ∃ ws, s.k.fs.fat.disk = f.disk.crash ws ∧ ∀ w ∈ ws, Inside f.toGeo w.1

theorem Carries.since {h : Hardware} {f : Vol} (hf : Carries h.dev f) : Since f (kernelMain h) := by
  obtain ⟨hfat, hserved⟩ := hf.boot
  refine ⟨?_, ?_, [], ?_, by simp⟩
  · rw [kernelMain_fs, hfat]
    exact hserved
  · rw [kernelMain_fs, hfat]
  · rw [kernelMain_fs, hfat]
    rfl

theorem Since.step {f : Vol} {s s' : Sys} {e : Event} {o : Reply} (h : Since f s)
    (hs : Stays s e o s') : Since f s' := by
  obtain ⟨v', ws, hv', hthrough⟩ := h.served.way hs
  obtain ⟨vs, hvs, hin⟩ := h.disk
  refine ⟨⟨hv'.mounted, hv'.agree, hv'.sound, rfl⟩, hthrough.geo.trans h.geo, vs ++ ws, ?_, ?_⟩
  · rw [hthrough.disk, hvs, Fat.Disk.crash_append]
  · intro w hw
    rcases List.mem_append.mp hw with hw | hw
    · exact hin w hw
    · rw [← h.geo]
      exact hthrough.inside w hw

theorem Since.run {f : Vol} {s s' : Sys} {rs : List (Event × Reply)} (h : Since f s)
    (hrun : Allows Stays s rs s') : Since f s' :=
  hrun.rule (fun _ _ _ _ h hs => h.step hs) h

/-- The power goes during an event that leads from `s` to `s'`. Of its writes some reached the
drive `a`, and `a'` is that drive at the next boot. -/
structure PowerLost (s s' : Sys) (a a' : Ata) : Prop where
  left : ∃ ws k, s'.k.fs.fat.disk.log = s.k.fs.fat.disk.log ++ ws ∧
    a'.medium = (s.k.fs.fat.disk.crash (ws.take k)).data
  drive : (diskOf a').drive = (diskOf a).drive
  healthy : Healthy a'

theorem Since.lost {f : Vol} {s s' : Sys} {e : Event} {o : Reply} {a a' : Ata} (h : Since f s)
    (ha : Carries a f) (hs : Stays s e o s') (hlost : PowerLost s s' a a') :
    ∃ f', Carries a' f' ∧ f'.files.cwd = [slash] ∧ OnEvent s.k.fs.fat.files e f'.files.catalog := by
  obtain ⟨ws, k, hlog, hmedium⟩ := hlost.left
  obtain ⟨v', us, -, hthrough⟩ := h.served.way hs
  obtain rfl : us = ws := by
    rw [hthrough.disk, Fat.Disk.crash_log] at hlog
    exact List.append_cancel_left hlog
  obtain ⟨vs, hvs, hin⟩ := h.disk
  obtain ⟨htree, hway⟩ := hthrough.cuts k
  rw [hvs, ← Fat.Disk.crash_append] at hmedium htree hway
  rw [h.geo] at htree hway
  have hwritten : ∀ w ∈ vs ++ us.take k, Inside f.toGeo w.1 := by
    intro w hw
    rcases List.mem_append.mp hw with hw | hw
    · exact hin w hw
    · rw [← h.geo]
      exact hthrough.inside w (List.mem_of_mem_take hw)
  obtain ⟨f', hf', hfiles⟩ := ha.reboot hwritten htree hlost.healthy hlost.drive hmedium
  refine ⟨f', hf', ?_, ?_⟩
  · rw [hfiles]
  · rw [hfiles]
    exact hway

/-- **Old or new.** The system is booted from a drive with a sound volume, runs, and loses power
at any moment of any event. Booted again it has the catalog from before the event or one that the
event may leave, and is where it was at the start: in the root, with a drive it can boot from. -/
theorem reboot_oldOrNew {h h' : Hardware} {f : Vol} {rs : List (Event × Reply)} {s s' : Sys}
    {e : Event} {o : Reply} (hf : Carries h.dev f) (hrun : Allows Stays (kernelMain h) rs s)
    (hs : Stays s e o s') (hlost : PowerLost s s' h.dev h'.dev) :
    ∃ f', Carries h'.dev f' ∧ Served (kernelMain h').k.fs f'.files ∧ f'.files.cwd = [slash] ∧
      OnEvent s.k.fs.fat.files e f'.files.catalog := by
  obtain ⟨f', hf', hcwd, hway⟩ := (hf.since.run hrun).lost hf hs hlost
  exact ⟨f', hf', hf'.served, hcwd, hway⟩

/-! ## A drive with the sample volume -/

/-- A drive of 140 sectors. -/
def volDev (medium : Nat → Sector) : Ata :=
  { smallDrive [] medium with
    drive := Fat.Drive.ofSize 140
    ident := fun i => if i = 83 then 0x400 else if i = 100 then 140 else 0 }

/-- The sample volume in the one partition. -/
def volMedium : Nat → Sector := fun l =>
  if l = 0 then format [some ⟨0x0C, 1, 139⟩, none, none, none] fun _ => 0 else Fat.sampleDisk.data l

/-- The machine of one program, with such a drive. -/
def volHardware (medium : Nat → Sector) : Hardware :=
  { sampleHardware with dev := volDev medium }

theorem volDev_size (medium : Nat → Sector) : (volDev medium).size = 140 := by
  show (140 : UInt16).toNat ||| (0 : UInt16).toNat <<< 16 ||| (0 : UInt16).toNat <<< 32 |||
    (0 : UInt16).toNat <<< 48 = 140
  decide

theorem volDev_healthy (medium : Nat → Sector) : Healthy (volDev medium) where
  idle := rfl
  prompt := ⟨show 0 < 100000 by decide, fun n hn => absurd hn List.not_mem_nil⟩
  size := by
    rw [volDev_size]
    decide
  usable := by
    refine ⟨show (0x400 : UInt16) &&& 0x400 ≠ 0 by decide, ?_, rfl⟩
    rw [volDev_size]
    decide

theorem volDev_drive (medium : Nat → Sector) :
    (diskOf (volDev medium)).drive = Fat.Drive.ofSize 140 := by
  unfold diskOf
  rw [volDev_size]
  simp [volDev, Fat.Drive.ofSize]

/-- The volume that boot mounts there. -/
def volBooted : Vol := (fatMount 1 (plainVol (diskOf (volDev volMedium)))).2

theorem volBooted_carries : Carries (volDev volMedium) volBooted := by
  obtain ⟨f, hf, hgeo, hdisk, -⟩ := Fat.fatMount_congr
    (m := plainVol (diskOf (volDev volMedium))) Fat.sampleMounted_eq (volDev_drive volMedium) rfl
  obtain rfl : volBooted = f := congrArg Prod.snd hf
  have hgeo : volBooted.toGeo = Fat.sampleVol.toGeo := hgeo
  have htree := Fat.sampleVol_certified.wellFormed.tree
  refine ⟨volDev_healthy _, ⟨⟨0x0C, 1, 139⟩, [], ?_, hf, by rw [hgeo]; decide⟩, ?_⟩
  · refine tableOf_format rfl (fun e he p hp => ?_) _
    simp only [List.mem_cons, List.not_mem_nil, or_false] at he
    rcases he with rfl | rfl | rfl | rfl
    · obtain rfl := Option.some.inj hp
      decide
    all_goals exact absurd hp (by simp)
  · rw [hgeo, hdisk]
    refine (untouched_behind htree (volDev_drive volMedium) fun l hl => if_neg ?_).tree htree
    have hl : 2 ≤ l := hl
    omega

/-- The power goes after the first `k` writes of an event. -/
theorem loses_power {s s' : Sys} {e : Event} {o : Reply} {v : Fat.Files} (hv : Served s.k.fs v)
    (hs : Stays s e o s') (medium : Nat → Sector) (k : Nat) :
    ∃ medium', PowerLost s s' (volDev medium) (volDev medium') := by
  obtain ⟨v', ws, -, hthrough⟩ := hv.way hs
  refine ⟨(s.k.fs.fat.disk.crash (ws.take k)).data, ⟨ws, k, ?_, rfl⟩, ?_, volDev_healthy _⟩
  · rw [hthrough.disk, Fat.Disk.crash_log]
  · rw [volDev_drive, volDev_drive]

theorem volHardware_user (medium : Nat → Sector) :
    (kernelMain (volHardware medium)).cpu = .user := by
  obtain ⟨m, hm⟩ := sample_start_on (volDev medium)
  exact congrArg Sys.cpu hm

/-- `/G` is written, and the power goes after two sectors. -/
theorem reboot_oldOrNew_sample : ∃ o s' medium f',
    Stays (kernelMain (volHardware volMedium)) (.call writeG memG) o s' ∧
      PowerLost (kernelMain (volHardware volMedium)) s' (volDev volMedium) (volDev medium) ∧
      Carries (volDev medium) f' ∧
      Served (kernelMain (volHardware medium)).k.fs f'.files ∧ f'.files.cwd = [slash] ∧
      OnEvent (kernelMain (volHardware volMedium)).k.fs.fat.files (.call writeG memG)
        f'.files.catalog := by
  have hf : Carries (volHardware volMedium).dev volBooted := volBooted_carries
  obtain ⟨r, v', s', hs, -⟩ := hf.served.stays (volHardware_user volMedium)
    (by rw [hf.cwd]; decide) request_writeG trivial
  obtain ⟨medium, hlost⟩ := loses_power hf.served hs volMedium 2
  obtain ⟨f', hf', hserved, hcwd, hway⟩ :=
    @reboot_oldOrNew _ (volHardware medium) _ _ _ _ _ _ hf (.nil _) hs hlost
  exact ⟨_, s', medium, f', hs, hlost, hf', hserved, hcwd, hway⟩

/-! ## Any number of sessions -/

/-- One session without a write to `key`, from boot to power loss. -/
def Session (key : List Str) (h h' : Hardware) : Prop :=
  ∃ rs s e o s', Allows (StaysApart key) (kernelMain h) rs s ∧ StaysApart key s e o s' ∧
    PowerLost s s' h.dev h'.dev

theorem onEvent_kept {s : Sys} {e : Event} {key : List Str} {c : Catalog}
    (h : OnEvent s.k.fs.fat.files e c) (hkey : capitals key = key) (hapart : Apart key s e) :
    c key = s.k.fs.fat.files.catalog key := by
  rcases h with rfl | ⟨o, v, ha, rfl⟩
  · rfl
  · exact asked_kept ha hkey hapart

/-- The drive carries a volume that has this under `key`. -/
def OnDrive (key : List Str) (it : Kind) (h : Hardware) : Prop :=
  ∃ f, Carries h.dev f ∧ f.files.catalog key = some it

theorem OnDrive.has {key : List Str} {it : Kind} {h : Hardware} (hd : OnDrive key it h) :
    Has key it (kernelMain h) := by
  obtain ⟨f, hf, hc⟩ := hd
  exact ⟨f.files, hf.served, hc⟩

/-- The end of a session that has it. -/
theorem Has.lost {key : List Str} {it : Kind} {h h' : Hardware} {f : Vol} {s s' : Sys} {e : Event}
    {o : Reply} (hf : Carries h.dev f) (hsince : Since f s) (hhas : Has key it s)
    (hkey : capitals key = key) (hs : StaysApart key s e o s')
    (hlost : PowerLost s s' h.dev h'.dev) : OnDrive key it h' := by
  obtain ⟨f', hf', -, hway⟩ := hsince.lost hf hs.2 hlost
  obtain ⟨v, hv, hc⟩ := hhas
  obtain rfl := hv.files
  exact ⟨f', hf', (onEvent_kept hway hkey hs.1).trans hc⟩

theorem StaysApart.run {key : List Str} {s s' : Sys} {rs : List (Event × Reply)}
    (h : Allows (StaysApart key) s rs s') : Allows Stays s rs s' :=
  h.mono fun _ _ _ _ hs => hs.2

theorem OnDrive.session {key : List Str} {it : Kind} {h h' : Hardware} (hd : OnDrive key it h)
    (hkey : capitals key = key) (hs : Session key h h') : OnDrive key it h' := by
  obtain ⟨rs, s, e, o, s', hrun, hstep, hlost⟩ := hs
  obtain ⟨f, hf, -⟩ := id hd
  exact Has.lost hf (hf.since.run (StaysApart.run hrun)) (hd.has.run hkey hrun) hkey hstep hlost

theorem OnDrive.sessions {key : List Str} {it : Kind} {h h' : Hardware} (hd : OnDrive key it h)
    (hkey : capitals key = key) (hs : Relation.ReflTransGen (Session key) h h') :
    OnDrive key it h' := by
  induction hs with
  | refl => exact hd
  | tail _ hsession ih => exact ih.session hkey hsession

/-- **What was saved survives.** A program wrote `buf` to `abs` and was told so. Whatever happens
after it, with the power lost any number of times and at any moment: until a file of that name is
written, whoever reads the name is given `buf`. -/
theorem saved_survives {h h₁ hₙ : Hardware} {f : Vol} {s₀ s₁ s₂ s₂' s s' : Sys}
    {rs₀ rs₁ rs : List (Event × Reply)} {f₁ f₂ : SyscallFrame} {mem₁ mem₁' mem₂ : Memory}
    {path path' buf abs abs' : Str} {p₁ p₂ : BitVec 64} {cap : Nat} {e : Event} {o₁ o : Reply}
    (hf : Carries h.dev f) (hrun₀ : Allows Stays (kernelMain h) rs₀ s₀)
    -- the write
    (hreq₁ : request f₁ mem₁ = some (.call (.fwrite path buf), p₁))
    (habs : abspath s₀.k.fs.fat.cwdPath path = some abs)
    (hsaved : Stays s₀ (.call f₁ mem₁) (.back 0 mem₁') s₁)
    -- the rest of the session, and the sessions after it
    (hrun₁ : Allows (StaysApart (storedAs abs)) s₁ rs₁ s₂)
    (hlast : StaysApart (storedAs abs) s₂ e o₁ s₂')
    (hlost : PowerLost s₂ s₂' h.dev h₁.dev)
    (hsessions : Relation.ReflTransGen (Session (storedAs abs)) h₁ hₙ)
    -- the read
    (hrun : Allows (StaysApart (storedAs abs)) (kernelMain hₙ) rs s)
    (hreq₂ : request f₂ mem₂ = some (.fread path' cap, p₂))
    (habs' : abspath s.k.fs.fat.cwdPath path' = some abs')
    (hsame : capitals (comps abs') = storedAs abs) (hslash : abs'.getLast? ≠ some slash)
    (hread : Stays s (.call f₂ mem₂) o s') :
    o = .back (BitVec.ofInt 64 (min buf.length cap : Nat)) (store mem₂ p₂ (buf.take cap)) := by
  have hkey := storedAs_capitals abs
  have hsince := hf.since.run hrun₀
  have hstored := hsince.served.saved hreq₁ habs hsaved
  have hfirst : OnDrive (storedAs abs) (Fat.holding buf) h₁ :=
    Has.lost hf ((hsince.step hsaved).run (StaysApart.run hrun₁)) (hstored.run hkey hrun₁) hkey
      hlast hlost
  exact ((hfirst.sessions hkey hsessions).has.run hkey hrun).read hreq₂ habs' hsame hslash hread

theorem volBooted_saved : ∃ s, Stays (kernelMain (volHardware volMedium)) (.call writeG memG)
    (.back 0 memG) s ∧ s.cpu = .user ∧ s.k.fs.fat.cwdPath = [slash] := by
  have hfs := kernelMain_fs (volHardware volMedium)
  have hcpu := volHardware_user volMedium
  obtain ⟨hfat, hserved⟩ := volBooted_carries.boot
  have hok : (Fat.fatWrite 128 [slash, 71] [1, 2] volBooted).map Prod.fst = some true := by
    decide +kernel
  generalize kernelMain (volHardware volMedium) = s at hfs hcpu ⊢
  have hfs : s.k.fs = bootFs (volDev volMedium) := hfs
  obtain ⟨k, cpu⟩ := s
  obtain rfl : cpu = .user := hcpu
  dsimp only at hfs
  refine writeG_saved ?_ ?_ ?_
  · rw [hfs]
    exact hserved.mounted
  · rw [hfs, hfat]
    exact volBooted_carries.cwd
  · rw [hfs, hfat]
    exact hok

/-- `/G` is saved, the power goes while `/H` is written, and `/g` is read. -/
theorem saved_survives_sample : ∃ s₁ s₂ medium o₂ o s,
    Stays (kernelMain (volHardware volMedium)) (.call writeG memG) (.back 0 memG) s₁ ∧
      Stays s₁ (.call writeG memH) o₂ s₂ ∧
      PowerLost s₁ s₂ (volDev volMedium) (volDev medium) ∧
      Stays (kernelMain (volHardware medium)) (.call readG memLower) o s ∧
      o = .back 2 (store memLower 0x3000 [1, 2]) := by
  have hf : Carries (volHardware volMedium).dev volBooted := volBooted_carries
  obtain ⟨s₁, hsaved, hcpu₁, hcwd₁⟩ := volBooted_saved
  have hv₁ : Served s₁.k.fs s₁.k.fs.fat.files := (hf.since.step hsaved).served
  obtain ⟨r₂, v₂, s₂, hwrite, -⟩ :=
    hv₁.stays hcpu₁ (by rw [show s₁.k.fs.fat.files.cwd = [slash] from hcwd₁]; decide)
      request_writeH trivial
  obtain ⟨medium, hlost⟩ := loses_power hv₁ hwrite volMedium 1
  obtain ⟨f', hf', hcwd', -⟩ := (hf.since.step hsaved).lost hf hwrite hlost
  have hf' : Carries (volHardware medium).dev f' := hf'
  obtain ⟨r, v, s, hread, -⟩ := hf'.served.stays (volHardware_user medium)
    (by rw [hcwd']; decide) request_readLower trivial
  have hapart : Apart (storedAs [slash, 71]) s₁ (.call writeG memH) := by
    intro f mem path buf p abs he hq habs
    obtain ⟨rfl, rfl⟩ := Event.call.inj he
    rw [request_writeH] at hq
    obtain ⟨hq, -⟩ := Prod.mk.inj (Option.some.inj hq)
    obtain ⟨rfl, -⟩ := Fs.Call.fwrite.inj (Request.call.inj hq)
    obtain rfl : [slash, 72] = abs := Option.some.inj habs
    decide
  have hlost : PowerLost s₁ s₂ (volHardware volMedium).dev (volHardware medium).dev := hlost
  have hsessions : Relation.ReflTransGen (Session (storedAs [slash, 71])) (volHardware medium)
      (volHardware medium) := .refl
  exact ⟨s₁, s₂, medium, _, _, s, hsaved, hwrite, hlost, hread,
    saved_survives hf (.nil _) request_writeG rfl hsaved (.nil _) ⟨hapart, hwrite⟩ hlost hsessions
      (.nil _) request_readLower (rfl : _ = some [slash, 103]) (by decide) (by decide) hread⟩

end InaneOS.Kernel
