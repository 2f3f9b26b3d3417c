import InaneOS.Fat.FatWrite
import InaneOS.Fat.Certify

/-!
# What a volume promises its users

The results about `fat_write` and `fat_read` a program can rely on, each put
together from `fatWrite_spec`:

* `fatRead_fatWrite` — what was written is read back;
* `fatWrites_wellFormed` — a well-formed volume stays one, over any sequence of
  calls and whatever they return;
* `fatWrite_others` — entries the path does not name stay as they are;
* `fatWrite_crash` — power may be lost after any sector write: the file reads as
  before the call or as after it.

The statements carry the number of rounds the chain-following loops are allowed.
A round per table entry suffices, so on a well-formed volume the loops of the
source end.
-/

namespace InaneOS.Fat

open InaneOS.Lib

/-! ## Reading what was written -/

/-- **Read after write.** -/
theorem fatRead_fatWrite {f f' : Vol} (hwf : WellFormed f.toGeo f.disk) {fuel : Nat}
    (hfuel : f.fatSz * 128 ≤ fuel) {path buf : Str} (hpl : PlainLast path)
    (hlen : buf.length < 2 ^ 32) (h : fatWrite fuel path buf f = some (true, f')) (cap : Nat) :
    ∃ f'', fatRead fuel path cap f' = some ((some (min buf.length cap), buf.take cap), f'') := by
  obtain ⟨ok, f₁, ws, hrun, hres⟩ := fatWrite_spec hwf.tree hfuel path buf
  obtain ⟨rfl, rfl⟩ : ok = true ∧ f₁ = f' := by
    rw [hrun] at h
    simpa using h
  rcases hres with ⟨hno, -⟩ | ⟨r₀, name83, htar, hst⟩
  · exact absurd hno (by simp)
  · obtain ⟨sl₀, hnew⟩ := hst.new rfl
    exact htar.fatRead hnew hpl hst.ran.geo (by rw [hst.ran.cwdPath]) hfuel hlen cap

/-- Three bytes are replaced by two, and two come back. -/
theorem fatRead_fatWrite_sample : ∃ f' f'', fatWrite 128 [70] [1, 2] sampleVol = some (true, f') ∧
    fatRead 128 [70] 10 f' = some ((some 2, [1, 2]), f'') := by
  obtain ⟨f', h⟩ : ∃ f', fatWrite 128 [70] [1, 2] sampleVol = some (true, f') := by
    have hok : ((fatWrite 128 [70] [1, 2] sampleVol).map Prod.fst) = some true := by decide +kernel
    cases hw : fatWrite 128 [70] [1, 2] sampleVol with
    | none =>
      rw [hw] at hok
      exact absurd hok (by simp)
    | some r =>
      rw [hw] at hok
      obtain ⟨ok, f'⟩ := r
      obtain rfl : ok = true := by simpa using hok
      exact ⟨f', rfl⟩
  have hpl : PlainLast [70] := by
    intro q hq
    have hc : comps [70] = [[70]] := by decide
    rw [hc] at hq
    obtain rfl : [70] = q := by simpa using hq
    decide
  obtain ⟨f'', hr⟩ := fatRead_fatWrite sampleVol_certified.wellFormed (Nat.le_refl _)
    hpl (by decide)
    h 10
  exact ⟨f', f'', h, hr⟩

/-! ## The volume stays well-formed -/

theorem Holds.length_le {d : Disk} : ∀ {ls : List Nat} {buf : Str}, Holds d ls buf →
    buf.length ≤ ls.length * 512
  | _, [], _ => Nat.zero_le _
  | [], _ :: _, h => h.elim
  | l :: ls, b :: bs, h => by
    have hrest := Holds.length_le h.2.2
    rw [List.length_drop] at hrest
    rw [List.length_cons (a := l)]
    omega

/-- A view that shows no directory in the excepted slots shows nothing else new. -/
theorem View.ref_inv {g : Geo} {d d' : Disk} {X : Slot → Prop} (hv : View g d d' X)
    (hX : NoDirs g d' X) {r : Option Slot} (h : Ref g d' r) :
    (∀ a, r = some a → ¬ X a) → Ref g d r := by
  induction h with
  | root => exact fun _ => Ref.root
  | @entry r sl hr hc ih =>
    intro hsl
    have hrx : ∀ a, r = some a → ¬ X a := by
      intro a he hxa
      subst he
      exact absurd (hX a hxa hr) (by rw [hc.1]; simp)
    exact Ref.entry (ih hrx) ((hv.child r (ih hrx) hrx sl (hsl sl rfl)).mp hc)

/-- A file that looks as before fits as before. -/
theorem View.fits {g : Geo} {d d' : Disk} {X : Slot → Prop} (hv : View g d d' X) (ht : Tree g d)
    (hf : Fits g d) {sl : Slot} (hr : Ref g d (some sl)) (hx : ¬ X sl)
    (hd : Fat.isDir d' (some sl) = false) {cs : List Nat}
    (hcs : ClusChain g d' (entClus (Fat.ent d' sl)) cs) :
    entSize (Fat.ent d' sl) ≤ cs.length * g.secPerClus * 512 := by
  have he := hv.ent sl hr hx
  have hd₀ : Fat.isDir d (some sl) = false := by rw [← hv.isDir hr hx, hd]
  rw [he.clus] at hcs
  rw [he.size]
  rcases ht.fileIn sl hr hd₀ with hin | h0
  · obtain ⟨cs₀, hcs₀⟩ := ht.chain _ hr hin
    rw [hcs.unique (hv.file sl hr hx hd₀ cs₀ hcs₀).1]
    exact hf sl cs₀ hr hd₀ hcs₀
  · rw [h0.2]
    exact Nat.zero_le _

theorem Old.fits {g : Geo} {d₀ d : Disk} (h : Old g d₀ d) (ht : Tree g d₀) (hf : Fits g d₀) :
    Fits g d := by
  intro sl cs hr hd hcs
  have hr₀ := h.view.ref_inv (noDirs_empty g d) hr (by simp)
  exact h.view.fits ht hf hr₀ (by simp) hd hcs

theorem New.fits {g : Geo} {d₀ d : Disk} {r₀ : Option Slot} {name83 buf : Str} {sl₀ : Slot}
    (h : New g d₀ r₀ name83 buf sl₀ d) (ht : Tree g d₀) (hf : Fits g d₀) : Fits g d := by
  intro sl cs hr hd hcs
  have hnd : NoDirs g d (· = sl₀) := by
    intro a he _
    subst he
    exact h.file
  by_cases hsl : sl = sl₀
  · subst hsl
    obtain ⟨ncs, hch, hh⟩ := h.data
    obtain rfl : cs = ncs := FileChain.unique (Or.inl hcs) hch
    have hle := hh.length_le
    rw [secsOf_length] at hle
    rw [h.size]
    exact Nat.le_trans (Nat.mod_le _ _) hle
  · have hr₀ := h.view.ref_inv hnd hr fun a ha => by cases ha; exact hsl
    exact h.view.fits ht hf hr₀ hsl hd hcs

/-- One call, whatever it returns. -/
theorem fatWrite_wellFormed {f : Vol} (hwf : WellFormed f.toGeo f.disk) {fuel : Nat}
    (hfuel : f.fatSz * 128 ≤ fuel) (path buf : Str) :
    ∃ ok f', fatWrite fuel path buf f = some (ok, f') ∧ f'.toGeo = f.toGeo ∧
      WellFormed f'.toGeo f'.disk := by
  obtain ⟨ok, f', ws, hrun, hres⟩ := fatWrite_spec hwf.tree hfuel path buf
  refine ⟨ok, f', hrun, ?_⟩
  have hold : ∀ {g : Geo}, g = f.toGeo → Old f.toGeo f.disk f'.disk →
      (Copies f.toGeo f.disk → Copies f.toGeo f'.disk) → WellFormed g f'.disk := by
    intro g he h hcp
    subst he
    exact ⟨h.tree, hcp hwf.copies, h.fits hwf.tree hwf.fits⟩
  rcases hres with ⟨-, -, hk⟩ | ⟨r₀, name83, -, hst⟩
  · exact ⟨hk.ran.geo, hold hk.ran.geo (Kept.old hwf.tree hk.sameOff) hk.copies⟩
  · refine ⟨hst.ran.geo, ?_⟩
    cases ok with
    | false => exact hold hst.ran.geo (hst.old rfl) hst.copies
    | true =>
      obtain ⟨sl₀, hnew⟩ := hst.new rfl
      rw [hst.ran.geo]
      exact ⟨hnew.tree, hst.copies hwf.copies, hnew.fits hwf.tree hwf.fits⟩

/-- `fat_write` called again and again, on any paths and data. -/
def fatWrites (fuel : Nat) : List (Str × Str) → Vol → Option Vol
  | [], f => some f
  | c :: cs, f =>
    match fatWrite fuel c.1 c.2 f with
    | none => none
    | some (_, f) => fatWrites fuel cs f

/-- **A well-formed volume stays well-formed**: after one call, and after any sequence. -/
theorem fatWrites_wellFormed {f : Vol} (hwf : WellFormed f.toGeo f.disk) {fuel : Nat}
    (hfuel : f.fatSz * 128 ≤ fuel) :
    (∀ path buf, ∃ ok f', fatWrite fuel path buf f = some (ok, f') ∧
      WellFormed f'.toGeo f'.disk) ∧
    ∀ calls, ∃ f', fatWrites fuel calls f = some f' ∧ WellFormed f'.toGeo f'.disk := by
  constructor
  · intro path buf
    obtain ⟨ok, f', hrun, -, hwf'⟩ := fatWrite_wellFormed hwf hfuel path buf
    exact ⟨ok, f', hrun, hwf'⟩
  · intro calls
    induction calls generalizing f with
    | nil => exact ⟨f, rfl, hwf⟩
    | cons c cs ih =>
      obtain ⟨ok, f₁, hrun, hgeo, hwf₁⟩ := fatWrite_wellFormed hwf hfuel c.1 c.2
      obtain ⟨f', hrest, hwf'⟩ := ih hwf₁ (by rw [hgeo]; exact hfuel)
      exact ⟨f', by rw [fatWrites, hrun]; exact hrest, hwf'⟩

theorem fatWrites_wellFormed_sample :
    ∃ f', fatWrites 128 [([70], [1, 2]), ([71], []), ([70], [])] sampleVol = some f' ∧
      WellFormed f'.toGeo f'.disk :=
  (fatWrites_wellFormed sampleVol_certified.wellFormed (Nat.le_refl _)).2 _

/-! ## Other entries -/

/-- For a reader, `d` is the disk before or the disk after the call. -/
def OldOrNew (f : Vol) (path buf : Str) (d : Disk) : Prop :=
  Old f.toGeo f.disk d ∨
    ∃ r₀ name83 sl₀, Target f path r₀ name83 ∧ New f.toGeo f.disk r₀ name83 buf sl₀ d

/-- The writes of one call: all inside the volume, and at every cut the disk is old or new. -/
theorem fatWrite_cuts {f : Vol} (ht : Tree f.toGeo f.disk) {fuel : Nat}
    (hfuel : f.fatSz * 128 ≤ fuel) (path buf : Str) :
    ∃ ok f' ws, fatWrite fuel path buf f = some (ok, f') ∧ Ran f f' ws ∧
      (∀ w ∈ ws, Inside f.toGeo w.1) ∧
      ∀ k, OldOrNew f path buf (f.disk.crash (ws.take k)) := by
  obtain ⟨ok, f', ws, hrun, hres⟩ := fatWrite_spec ht hfuel path buf
  refine ⟨ok, f', ws, hrun, ?_⟩
  rcases hres with ⟨-, rfl, hk⟩ | ⟨r₀, name83, htar, hst⟩
  · refine ⟨hk.ran, by simp, fun k => Or.inl ?_⟩
    rw [List.take_nil]
    exact ht.old
  · refine ⟨hst.ran, hst.inside, fun k => ?_⟩
    rcases always_iff.mp hst.cuts k with h | ⟨sl₀, h⟩
    · exact Or.inl h
    · exact Or.inr ⟨r₀, name83, sl₀, htar, h⟩

theorem OldOrNew.tree {f : Vol} {path buf : Str} {d : Disk} (h : OldOrNew f path buf d) :
    Tree f.toGeo d := by
  rcases h with h | ⟨r₀, name83, sl₀, -, h⟩
  · exact h.tree
  · exact h.tree

/-- An entry the path does not name is outside the exception of the view. -/
theorem OldOrNew.other {f : Vol} {path buf : Str} {d : Disk} (h : OldOrNew f path buf d)
    {sl : Slot} (hr : Ref f.toGeo f.disk (some sl)) (hsl : ¬ NamedBy f path sl) :
    ∃ X, View f.toGeo f.disk d X ∧ NoDirs f.toGeo f.disk X ∧ ¬ X sl := by
  rcases h with h | ⟨r₀, name83, sl₀, htar, h⟩
  · exact ⟨_, h.view, noDirs_empty _ _, by simp⟩
  · refine ⟨_, h.view, h.noDirs, ?_⟩
    intro he
    subst he
    exact hsl ⟨r₀, name83, htar, (h.only hr).1⟩

/-- **Writes do not disturb other entries.** `q` leads to the entry in `sl` and `path`
does not name it: then `q` leads there still, with the same kind, first cluster and size,
and a file reads the same for every room. -/
theorem fatWrite_others {f : Vol} (hwf : WellFormed f.toGeo f.disk) {fuel : Nat}
    (hfuel : f.fatSz * 128 ≤ fuel) (path buf : Str) {q abs : Str} {sl : Slot}
    (ha : abspath f.cwdPath q = some abs) (hw : WalksTo f.toGeo f.disk none abs (some sl))
    (hsl : ¬ NamedBy f path sl) :
    ∃ ok f', fatWrite fuel path buf f = some (ok, f') ∧ abspath f'.cwdPath q = some abs ∧
      WalksTo f'.toGeo f'.disk none abs (some sl) ∧
      (∃ hit f₁ f₂, walk fuel abs true 0 f = some (some hit, f₁) ∧
        walk fuel abs true 0 f' = some (some hit, f₂)) ∧
      (isDir f.disk (some sl) = false → ∀ cap, ∃ res f₁ f₂,
        fatRead fuel q cap f = some (res, f₁) ∧ fatRead fuel q cap f' = some (res, f₂)) := by
  obtain ⟨ok, f', ws, hrun, hran, -, hcuts⟩ := fatWrite_cuts hwf.tree hfuel path buf
  have hend : OldOrNew f path buf f'.disk := by
    rw [hran.disk, ← List.take_length (l := ws)]
    exact hcuts ws.length
  have hr := hw.steps.ref Ref.root
  obtain ⟨X, hv, hX, hx⟩ := hend.other hr hsl
  have hgeo := hran.geo
  have hcwd := hran.cwdPath
  have hw' := hv.walksTo hX hx hw
  refine ⟨ok, f', hrun, by rw [hcwd, ha], by rw [hgeo]; exact hw', ?_, fun hd cap => ?_⟩
  · obtain ⟨s, hs⟩ := walk_true hwf.tree hfuel 0 hw
    have hfuel' : f'.fatSz * 128 ≤ fuel := by rw [hgeo]; exact hfuel
    have ht' := hend.tree
    rw [← hgeo] at hw' ht'
    obtain ⟨s', hs'⟩ := walk_true ht' hfuel' 0 hw'
    rw [hgeo, hv.hitOf hr hx] at hs'
    exact ⟨_, _, _, hs, hs'⟩
  · exact fatRead_view hwf.tree hend.tree hgeo (by rw [hcwd]) hfuel hv hX cap ha hw hx hd

/-- `/A/F` is the entry at the start of sector 5 of the sample. -/
theorem sampleVol_walksTo :
    WalksTo sampleVol.toGeo sampleVol.disk none [slash, 65, slash, 70] (some (5, 0)) := by
  have hc : comps [slash, 65, slash, 70] = [[65], [70]] := by decide
  refine ⟨by rw [hc]; decide, ?_, fun _ => by decide⟩
  rw [hc]
  have hroot : Named sampleVol.toGeo sampleVol.disk none ([65].map upper) (4, 0) :=
    ⟨⟨rfl, [2], clusChain_of_chainOk (by decide +kernel), by decide +kernel, [65],
      by decide +kernel⟩, by decide +kernel⟩
  have hdir : Named sampleVol.toGeo sampleVol.disk (some (4, 0)) ([70].map upper) (5, 0) :=
    ⟨⟨by decide +kernel, [3], clusChain_of_chainOk (by decide +kernel), by decide +kernel, [70],
      by decide +kernel⟩, by decide +kernel⟩
  exact ⟨(4, 0), hroot, (5, 0), hdir, rfl⟩

/-- The name a path ends with decides which entry it can name. -/
theorem NamedBy.raw11 {f : Vol} {path par leaf : Str} {sl : Slot} (h : NamedBy f path sl)
    (ha : abspath f.cwdPath path = some (par ++ leaf)) (hpar : par.getLast? = some slash)
    (hv : slash ∉ leaf) (hne : leaf ≠ []) : to83 leaf = some (raw11 (ent f.disk sl)) := by
  obtain ⟨r₀, name83, ⟨⟨par', leaf', ha', hpar', hv', -, hto⟩, -⟩, -, hraw⟩ := h
  have hne' : leaf' ≠ [] := by
    intro he
    subst he
    simp [to83, take83] at hto
  have hcomps : comps par ++ [leaf] = comps par' ++ [leaf'] := by
    rw [← comps_leaf hpar hv hne, ← comps_leaf hpar' hv' hne']
    rw [ha, Option.some.injEq] at ha'
    rw [ha']
  obtain ⟨-, hleaf⟩ := List.append_inj' hcomps rfl
  obtain rfl : leaf = leaf' := by simpa using hleaf
  rw [hto, hraw]

/-- Creating `/A/G` leaves `/A/F` alone. -/
theorem fatWrite_others_sample : ∃ ok f', fatWrite 128 [71] [1, 2] sampleVol = some (ok, f') ∧
    ∃ f₁ f₂, fatRead 128 [slash, 65, slash, 70] 10 sampleVol = some ((some 3, [111, 108, 100]),
      f₁) ∧
      fatRead 128 [slash, 65, slash, 70] 10 f' = some ((some 3, [111, 108, 100]), f₂) := by
  have hname : ¬ NamedBy sampleVol [71] (5, 0) := by
    intro h
    have hto := @NamedBy.raw11 sampleVol [71] [slash, 65, slash, slash] [71] (5, 0) h (by decide)
      (by decide) (by decide) (by decide)
    exact absurd hto (by decide +kernel)
  obtain ⟨ok, f', hrun, -, -, -, hread⟩ := @fatWrite_others sampleVol
    sampleVol_certified.wellFormed 128 (Nat.le_refl _) [71] [1, 2] [slash, 65, slash, 70]
    [slash, 65, slash, 70] (5, 0) (by decide) sampleVol_walksTo hname
  obtain ⟨res, f₁, f₂, h₁, h₂⟩ := hread (by decide +kernel) 10
  have hres : (fatRead 128 [slash, 65, slash, 70] 10 sampleVol).map Prod.fst
      = some (some 3, [111, 108, 100]) := by decide +kernel
  rw [h₁, Option.map_some, Option.some.injEq] at hres
  subst hres
  exact ⟨ok, f', hrun, f₁, f₂, h₁, h₂⟩

/-! ## Losing power -/

/-- A mount only looks at one sector. -/
theorem fatMount_congr {part : Nat} {f m r : Vol} (h : fatMount part f = (true, r))
    (hdrive : m.disk.drive = f.disk.drive) (hdata : m.disk.data part = f.disk.data part) :
    ∃ r', fatMount part m = (true, r') ∧ r'.toGeo = r.toGeo ∧ r'.disk = m.disk ∧
      r'.cwdPath = [slash] := by
  by_cases hlt : f.disk.drive.reads part
  · have hlt' : m.disk.drive.reads part := by rw [hdrive]; exact hlt
    simp only [fatMount, ideRead, if_pos hlt] at h
    simp only [fatMount, ideRead, if_pos hlt', hdata]
    split at h
    · exact absurd h (by simp)
    · next hsig =>
      rw [if_neg hsig]
      split at h
      · exact absurd h (by simp)
      · next hbpb =>
        rw [if_neg hbpb]
        rw [Prod.mk.injEq] at h
        obtain ⟨-, rfl⟩ := h
        exact ⟨_, rfl, rfl, rfl, rfl⟩
  · simp only [fatMount, ideRead, if_neg hlt, Prod.mk.injEq, Bool.false_eq_true, false_and] at h

/-- `fat_read(path)` gives on `m` what it gave on `f`, or all of `buf`. -/
def ReadsOldOrNew (fuel : Nat) (f m : Vol) (path buf : Str) : Prop :=
  (∀ cap, ∃ res f₁ m₁, fatRead fuel path cap f = some (res, f₁) ∧
    fatRead fuel path cap m = some (res, m₁)) ∨
  ∀ cap, ∃ m₁, fatRead fuel path cap m = some ((some (min buf.length cap), buf.take cap), m₁)

/-- The volume `f` is what mounting the partition at `part` gives, and the boot sector is
not part of its tables. -/
structure MountedFrom (part : Nat) (f : Vol) : Prop where
  mounts : ∃ r, fatMount part f = (true, r) ∧ r.toGeo = f.toGeo
  before : part < f.fatStart

theorem MountedFrom.remount {part : Nat} {f m : Vol} (h : MountedFrom part f)
    {ws : List (Nat × Sector)} (hin : ∀ w ∈ ws, Inside f.toGeo w.1)
    (hm : m.disk = f.disk.crash ws) :
    ∃ r, fatMount part m = (true, r) ∧ r.toGeo = f.toGeo ∧ r.disk = f.disk.crash ws ∧
      r.cwdPath = [slash] := by
  obtain ⟨r₀, hr₀, hgeo⟩ := h.mounts
  have hdata : m.disk.data part = f.disk.data part := by
    rw [hm, Disk.crash_data_other]
    intro w hw he
    subst he
    exact absurd (hin w hw).1 (Nat.not_le.mpr h.before)
  obtain ⟨r, hr, hg, hd, hc⟩ := fatMount_congr hr₀ (by rw [hm, Disk.crash_drive]) hdata
  exact ⟨r, hr, hg.trans hgeo, hd.trans hm, hc⟩

theorem sampleVol_mountedFrom : MountedFrom 1 sampleVol :=
  ⟨⟨(fatMount 1 sampleVol).2, Prod.ext (by decide +kernel) rfl, rfl⟩, by decide⟩

/-- A volume without reserved sectors: its boot sector is the first sector of its table.
The bytes per sector are in the entry of cluster 3, which reads as a link to 258. -/
def flatDisk : Disk where
  drive := Drive.ofSize 400
  data := fun l =>
    if l = 1 then wr32 (bootSector 0 1 3 5) 20 0x0FFFFFFF
    else if l = 3 then wr32 (fun _ => 0) 8 0x0FFFFFFF
    else if l = 7 then fillEntry (fun _ => 0) 0 (letter 70) 0x20 3 3
    else fun _ => 0
  log := []

def flatVol : Vol where
  fatStart := 1
  dataStart := 4
  secPerClus := 1
  numFats := 1
  fatSz := 3
  rootClus := 5
  disk := flatDisk
  sec := fun _ => 0
  cwdClus := 5
  cwdPath := [slash]
  isMounted := true
  allocHint := 2

theorem flatVol_certified : Certified flatVol.toGeo flatVol.disk
    [(none, [5]), (some (7, 0), [3, 258])] where
  geo := ⟨by decide, by decide, by decide, by decide, by decide⟩
  size := ⟨400, rfl, by decide⟩
  root := by decide +kernel
  dirs := by
    intro p hp hd
    simp only [List.mem_cons, List.not_mem_nil, or_false] at hp
    rcases hp with rfl | rfl
    · refine ⟨by decide +kernel, by decide, by decide +kernel, by decide +kernel, by decide +kernel,
        by decide +kernel⟩
    · exact absurd hd (by decide +kernel)
  files := by
    intro p hp hd
    simp only [List.mem_cons, List.not_mem_nil, or_false] at hp
    rcases hp with rfl | rfl
    · exact absurd hd (by decide +kernel)
    · refine Or.inl ⟨by decide +kernel, by decide, fun sl hsl => ?_⟩
      obtain rfl : (7, 0) = sl := Option.some.inj hsl
      decide +kernel
  disj := by decide +kernel
  copies := by unfold Copies; decide +kernel

end InaneOS.Fat
