import InaneOS.Fs.Nodes
import InaneOS.Fat.Guarantees

/-!
# Mounting a partition

Two facts about `fs_mount_part` and what follows it, each with the condition it
needs.

`fat_mount` copies three fields of the boot sector into the live statics before
it checks them, so a mount that fails may damage the volume that is mounted:
`fsMountPart_failed` says exactly when it does not.

The allocator bounds cluster numbers by the size of the table, not by that of the
partition: `fsMountPart_inside` says when all writes stay inside the partition,
and `tightFS_leaves` is a volume on which the first write does not.
-/

namespace InaneOS.Fs

open InaneOS.Fat

/-! ## A mount that fails -/

/-- Nothing but the sector buffer is different. -/
def Unchanged (s s' : FS) : Prop := ∃ b, s' = { s with fat := { s.fat with sec := b } }

/-- The volume is all that a mount which fails can change. -/
theorem unchanged_fat {s : FS} {f : Vol} :
    Unchanged s { s with fat := f } ↔ ∃ b, f = { s.fat with sec := b } := by
  constructor
  · intro h
    obtain ⟨b, hb⟩ := h
    exact ⟨b, congrArg FS.fat hb⟩
  · intro h
    obtain ⟨b, rfl⟩ := h
    exact ⟨b, rfl⟩

/-- A boot sector that can be read and is signed has the fields of the mounted volume in
the three places `fat_mount` copies before its checks. -/
def BootAgrees (lba : Nat) (f : Vol) : Prop :=
  f.disk.drive.reads lba → f.disk.data lba 510 = 0x55 → f.disk.data lba 511 = 0xAA →
    (f.disk.data lba 13).toNat = f.secPerClus ∧ rd32 (f.disk.data lba) 36 = f.fatSz ∧
      rd32 (f.disk.data lba) 44 = f.rootClus

theorem fatMount_failed {lba : Nat} {f f' : Vol} (h : fatMount lba f = (false, f')) :
    (∃ b, f' = { f with sec := b }) ↔ BootAgrees lba f := by
  unfold fatMount ideRead at h
  by_cases hlt : f.disk.drive.reads lba
  · rw [if_pos hlt] at h
    dsimp only at h
    by_cases hsig : f.disk.data lba 510 ≠ 0x55 ∨ f.disk.data lba 511 ≠ 0xAA
    · rw [if_pos hsig, Prod.mk.injEq] at h
      refine iff_of_true ⟨_, h.2.symm⟩ fun _ h1 h2 => ?_
      rcases hsig with hno | hno
      · exact absurd h1 hno
      · exact absurd h2 hno
    · rw [if_neg hsig] at h
      have hsig' : f.disk.data lba 510 = 0x55 ∧ f.disk.data lba 511 = 0xAA := by
        constructor
        · by_contra hno
          exact hsig (Or.inl hno)
        · by_contra hno
          exact hsig (Or.inr hno)
      -- the fields are in place when the checks fail
      split at h
      · rw [Prod.mk.injEq] at h
        obtain ⟨-, rfl⟩ := h
        constructor
        · intro h _ _ _
          obtain ⟨b, hb⟩ := h
          have hgeo := congrArg Vol.toGeo hb
          exact ⟨congrArg Geo.secPerClus hgeo, congrArg Geo.fatSz hgeo, congrArg Geo.rootClus hgeo⟩
        · intro hag
          obtain ⟨h1, h2, h3⟩ := hag hlt hsig'.1 hsig'.2
          exact ⟨f.disk.data lba, by rw [h1, h2, h3]⟩
      · exact absurd (congrArg Prod.fst h) (by simp)
  · rw [if_neg hlt, Prod.mk.injEq] at h
    exact iff_of_true ⟨f.sec, h.2.symm⟩ fun hc => absurd hc hlt

/-- **A failed mount changes nothing exactly when the boot sector found agrees with the
volume in use** in the fields that are copied too early (or is not looked at). -/
theorem fsMountPart_failed {idx : Int} {s s' : FS} (h : fsMountPart idx s = (fsBadpath, s')) :
    Unchanged s s' ↔ ∀ p, partGet idx s = some p → BootAgrees p.lba s.fat := by
  unfold fsMountPart at h
  cases hp : partGet idx s with
  | none =>
    rw [hp, Prod.mk.injEq] at h
    exact iff_of_true ⟨s.fat.sec, h.2.symm⟩ (by simp)
  | some p =>
    rw [hp] at h
    dsimp only at h
    have hone : (∀ q, some p = some q → BootAgrees q.lba s.fat) ↔ BootAgrees p.lba s.fat := by simp
    rw [hone]
    split at h
    · next f hf =>
      rw [Prod.mk.injEq] at h
      obtain ⟨-, rfl⟩ := h
      rw [← fatMount_failed hf]
      exact unchanged_fat
    · exact absurd (congrArg Prod.fst h) (by simp [fsOk, fsBadpath])

/-- The sample volume in use, and a second partition at sector 50 with a signed boot sector
that is not one of FAT32. -/
def sampleFS : FS :=
  { bareFS with
    mounted := true
    mountedIdx := 0
    fat := { sampleVol with
      disk := { sampleDisk with
        data := fun l =>
          if l = 50 then Lib.setByte (Lib.setByte (fun _ => 0) 510 0x55) 511 0xAA
          else if l = 51 then fun _ => 0
          else sampleDisk.data l } }
    parts := [⟨0x0C, 1, 49⟩, ⟨0x83, 50, 1⟩, ⟨0x83, 51, 80⟩] }

theorem fsMountPart_failed_sample : ∃ s', fsMountPart 2 sampleFS = (fsBadpath, s') ∧
    Unchanged sampleFS s' := by
  have hrun : fsMountPart 2 sampleFS = (fsBadpath, (fsMountPart 2 sampleFS).2) :=
    Prod.ext (by decide +kernel) rfl
  refine ⟨_, hrun, (fsMountPart_failed hrun).mpr fun p hp => ?_⟩
  obtain rfl : (⟨0x83, 51, 80⟩ : Part) = p := Option.some.inj hp
  intro _ hsig
  exact absurd hsig (by decide +kernel)

/-- Trying the second partition loses the file that was open to every reader before. -/
theorem fsMountPart_damages : ∃ s', fsMountPart 1 sampleFS = (fsBadpath, s') ∧
    s'.fat.secPerClus = 0 ∧ s'.fat.fatSz = 0 ∧ s'.fat.rootClus = 0 ∧ s'.mounted = true ∧
    (fatRead 128 [slash, 65, slash, 70] 10 sampleFS.fat).map Prod.fst
      = some (some 3, [111, 108, 100]) ∧
    (fatRead 128 [slash, 65, slash, 70] 10 s'.fat).map Prod.fst ≠ some (some 3, [111, 108, 100]) :=
  ⟨(fsMountPart 1 sampleFS).2, Prod.ext (by decide +kernel) rfl, by decide +kernel,
    by decide +kernel, by decide +kernel, by decide +kernel, by decide +kernel, by decide +kernel⟩

/-! ## Writing inside the partition -/

theorem fatMount_start {lba : Nat} {f f' : Vol} (h : fatMount lba f = (true, f')) :
    lba ≤ f'.fatStart := by
  unfold fatMount at h
  split at h
  · exact absurd (congrArg Prod.fst h) (by simp)
  · split at h
    · exact absurd (congrArg Prod.fst h) (by simp)
    · dsimp only at h
      split at h
      · exact absurd (congrArg Prod.fst h) (by simp)
      · rw [Prod.mk.injEq] at h
        obtain ⟨-, rfl⟩ := h
        exact Nat.le_add_right _ _

/-- The sectors any sequence of `fat_write` calls writes, on a well-formed volume. -/
theorem fatWrites_log {fuel : Nat} : ∀ (calls : List (Str × Str)) {f : Vol},
    WellFormed f.toGeo f.disk → f.fatSz * 128 ≤ fuel →
    ∃ f' ws, fatWrites fuel calls f = some f' ∧ f'.disk.log = f.disk.log ++ ws ∧
      ∀ w ∈ ws, Inside f.toGeo w.1
  | [], f, _, _ => ⟨f, [], rfl, by simp, by simp⟩
  | c :: cs, f, hwf, hfuel => by
    obtain ⟨ok, f₁, ws, hrun, hran, hin, -⟩ := fatWrite_cuts hwf.tree hfuel c.1 c.2
    obtain ⟨ok', f₁', hrun', hgeo, hwf₁⟩ := fatWrite_wellFormed hwf hfuel c.1 c.2
    obtain ⟨rfl, rfl⟩ : ok = ok' ∧ f₁ = f₁' := by
      rw [hrun] at hrun'
      simpa using hrun'
    have hfuel₁ : f₁.fatSz * 128 ≤ fuel := by rw [hgeo]; exact hfuel
    obtain ⟨f', vs, hrest, hlog, hvs⟩ := fatWrites_log cs hwf₁ hfuel₁
    refine ⟨f', ws ++ vs, by rw [fatWrites, hrun]; exact hrest, ?_, fun w hw => ?_⟩
    · rw [hlog, hran.disk, Disk.crash_log, List.append_assoc]
    · rcases List.mem_append.mp hw with hw | hw
      · exact hin w hw
      · rw [← hgeo]
        exact hvs w hw

/-- **Writes stay inside the mounted partition** when it has room for a cluster for every
table entry. -/
theorem fsMountPart_inside {idx : Int} {s s' : FS} {p : Part} (hp : partGet idx s = some p)
    (hm : fsMountPart idx s = (fsOk, s')) (hwf : WellFormed s'.fat.toGeo s'.fat.disk)
    (hroom : s'.fat.dataStart + (s'.fat.fatSz * 128 - 2) * s'.fat.secPerClus ≤ p.lba + p.sectors)
    {fuel : Nat} (hfuel : s'.fat.fatSz * 128 ≤ fuel) (calls : List (Str × Str)) :
    ∃ f' ws, fatWrites fuel calls s'.fat = some f' ∧ f'.disk.log = s'.fat.disk.log ++ ws ∧
      ∀ w ∈ ws, p.lba ≤ w.1 ∧ w.1 < p.lba + p.sectors := by
  obtain ⟨f', ws, hrun, hlog, hin⟩ := fatWrites_log calls hwf hfuel
  refine ⟨f', ws, hrun, hlog, fun w hw => ?_⟩
  have hstart : p.lba ≤ s'.fat.fatStart := by
    unfold fsMountPart at hm
    rw [hp] at hm
    dsimp only at hm
    split at hm
    · exact absurd (congrArg Prod.fst hm) (by simp [fsOk, fsBadpath])
    · next f hf =>
      rw [Prod.mk.injEq] at hm
      obtain ⟨-, rfl⟩ := hm
      exact fatMount_start hf
  obtain ⟨hlo, hhi⟩ := hin w hw
  exact ⟨Nat.le_trans hstart hlo, Nat.lt_of_lt_of_le hhi hroom⟩

/-- The sample disk with a partition that is large enough. -/
def roomyFS : FS := { bareFS with
  fat := { bareFS.fat with disk := sampleDisk }
  parts := [⟨0x0C, 1, 139⟩] }

theorem fsMountPart_inside_roomy : ∃ s' f' ws, fsMountPart 0 roomyFS = (fsOk, s') ∧
    fatWrites 128 [([slash, 70], [1, 2])] s'.fat = some f' ∧ f'.disk.log = ws ∧
      ∀ w ∈ ws, 1 ≤ w.1 ∧ w.1 < 140 := by
  have hm : fsMountPart 0 roomyFS = (fsOk, (fsMountPart 0 roomyFS).2) :=
    Prod.ext (by decide +kernel) rfl
  have hgeo : (fsMountPart 0 roomyFS).2.fat.toGeo = sampleVol.toGeo := rfl
  have hdisk : (fsMountPart 0 roomyFS).2.fat.disk = sampleVol.disk := rfl
  have hwf : WellFormed (fsMountPart 0 roomyFS).2.fat.toGeo (fsMountPart 0 roomyFS).2.fat.disk := by
    rw [hgeo, hdisk]
    exact sampleVol_certified.wellFormed
  obtain ⟨f', ws, hrun, hlog, hin⟩ := @fsMountPart_inside 0 roomyFS _ ⟨0x0C, 1, 139⟩ rfl hm hwf
    (by decide +kernel) 128 (by decide +kernel) [([slash, 70], [1, 2])]
  exact ⟨_, f', ws, hm, hrun, hlog, hin⟩

/-- A partition of four sectors from sector 1 on: the boot sector, a table, and two
clusters, the first of which is the empty root. The table has 126 entries for clusters. -/
def tightFS : FS := { bareFS with
  fat := { bareFS.fat with
    disk :=
      { drive := Drive.ofSize 10
        data := fun l =>
          if l = 1 then bootSector 1 1 1 2 else if l = 2 then fatSector [2] else fun _ => 0
        log := [] } }
  parts := [⟨0x0C, 1, 4⟩, ⟨0x83, 5, 5⟩] }

theorem tightFS_certified : Certified (fsMountPart 0 tightFS).2.fat.toGeo
    (fsMountPart 0 tightFS).2.fat.disk [(none, [2])] where
  geo := ⟨by decide +kernel, by decide +kernel, by decide +kernel, by decide +kernel,
    by decide +kernel⟩
  size := ⟨10, rfl, by decide +kernel⟩
  root := by decide +kernel
  dirs := by
    intro p hp hd
    obtain rfl : p = (none, [2]) := by simpa using hp
    refine ⟨by decide +kernel, by decide, by decide +kernel, by decide +kernel, by decide +kernel,
      by decide +kernel⟩
  files := by
    intro p hp hd
    obtain rfl : p = (none, [2]) := by simpa using hp
    exact absurd hd (by decide +kernel)
  disj := by decide +kernel
  copies := by unfold Copies; decide +kernel

/-- On a well-formed volume inside that partition the first write goes to sector 5, where
the next partition starts. -/
theorem tightFS_leaves : ∃ s', fsMountPart 0 tightFS = (fsOk, s') ∧
    WellFormed s'.fat.toGeo s'.fat.disk ∧ s'.fat.dataStart + 2 * s'.fat.secPerClus = 1 + 4 ∧
    (∀ c < 128, 4 ≤ c → fatEntry s'.fat.toGeo s'.fat.disk 0 c = 0) ∧
    ∃ f', fatWrites 128 [([slash, 70], [1])] s'.fat = some f' ∧
      ∃ w ∈ f'.disk.log, ¬ w.1 < 1 + 4 := by
  refine ⟨(fsMountPart 0 tightFS).2, Prod.ext (by decide +kernel) rfl,
    tightFS_certified.wellFormed, by decide +kernel, by decide +kernel, ?_⟩
  have hlog : (fatWrites 128 [([slash, 70], [1])] (fsMountPart 0 tightFS).2.fat).map
      (fun f => f.disk.log.map Prod.fst) = some [2, 5, 3] := by decide +kernel
  obtain ⟨f', hrun, hlog⟩ := Option.map_eq_some_iff.mp hlog
  have hmem : 5 ∈ f'.disk.log.map Prod.fst := by
    rw [hlog]
    decide
  obtain ⟨w, hw, h5⟩ := List.mem_map.mp hmem
  exact ⟨f', hrun, w, hw, by omega⟩

end InaneOS.Fs
