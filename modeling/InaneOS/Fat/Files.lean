import InaneOS.Fat.Catalog
import InaneOS.Fat.ListOut

/-!
# The FAT calls on a catalog

`Files` is what a mounted volume is to its users: the catalog and the text of the current
directory. Each call is one line about it: `fat_read` looks up, `fat_chdir` looks up and
goes there, `fat_list` goes through the names below a directory, and `fat_write` either
puts a file in or changes nothing. No clusters, no sectors, no order of writes.

The invariant that carries this from call to call is `Sound`: the tree is sound, and the
two records of the current directory agree. The copies of the table may differ, as they
can after a power loss. `Through` is what a call does to the disk on its way: all it
writes is inside the volume, and at every cut the catalog is one that it may leave.
-/

namespace InaneOS.Fat

open InaneOS.Lib

structure Files where
  catalog : Catalog
  cwd : Str

noncomputable def Vol.files (f : Vol) : Files := ⟨catalog f.toGeo f.disk, f.cwdPath⟩

theorem files_sec (f : Vol) (s : Sector) : { f with sec := s }.files = f.files := rfl

/-- A sound tree, and a current directory that exists. -/
structure Sound (f : Vol) : Prop where
  tree : Tree f.toGeo f.disk
  plain : Plain f.cwdPath
  dir : ∃ r, WalksTo f.toGeo f.disk none f.cwdPath r ∧ isDir f.disk r = true ∧
    f.cwdClus = first f.toGeo f.disk r

theorem CwdOk.sound {f : Vol} (h : CwdOk f) : Sound f := ⟨h.wf.tree, h.plain, h.dir⟩

theorem Sound.mounted {part : Nat} {f₀ f : Vol} (hm : fatMount part f₀ = (true, f))
    (ht : Tree f.toGeo f.disk) : Sound f := by
  obtain ⟨hpath, hclus⟩ := fatMount_cwd hm
  have hnil : comps [slash] = [] := rfl
  refine ⟨ht, Or.inl hpath, none, ?_, rfl, hclus⟩
  rw [hpath]
  exact ⟨by simp [hnil], rfl, fun h => absurd h (by simp [isDir])⟩

/-- The writes of a call, and the catalogs it goes through. -/
structure Through (f f' : Vol) (ws : List (Nat × Sector)) (ok : Catalog → Prop) : Prop where
  disk : f'.disk = f.disk.crash ws
  geo : f'.toGeo = f.toGeo
  inside : ∀ w ∈ ws, Inside f.toGeo w.1
  cuts : ∀ k, Tree f.toGeo (f.disk.crash (ws.take k)) ∧
    ok (catalog f.toGeo (f.disk.crash (ws.take k)))

/-- A call that writes nothing. -/
theorem Sound.through {f f' : Vol} (h : Sound f) (hd : f'.disk = f.disk) (hg : f'.toGeo = f.toGeo)
    {ok : Catalog → Prop} (hok : ok f.files.catalog) : Through f f' [] ok := by
  refine ⟨hd, hg, by simp, fun k => ?_⟩
  rw [List.take_nil]
  exact ⟨h.tree, hok⟩

/-! ## The calls -/

def Files.read (v : Files) (path : Str) (cap : Nat) : Option Nat × Str :=
  match abspath v.cwd path with
  | none => (none, [])
  | some abs =>
    match v.catalog (comps abs) with
    | some (.file read) => if abs.getLast? = some slash then (none, []) else read cap
    | _ => (none, [])

/-- The names of a directory, if `abs` is one. -/
def Files.dir (v : Files) (abs : Str) : Option (List Str) :=
  match v.catalog (comps abs) with
  | some .directory => some (comps abs)
  | _ => none

/-- The new current directory, if `path` leads to one. -/
def Files.chdir (v : Files) (path : Str) : Option Str :=
  match abspath v.cwd (if path = [] then [slash] else path) with
  | none => none
  | some abs => (v.dir abs).map fun _ => abs

/-- A file was written: its parent is a directory, and its name is no directory's. -/
def Files.Writes (v : Files) (path buf : Str) (v' : Files) : Prop :=
  ∃ par leaf, abspath v.cwd path = some (par ++ leaf) ∧ par.getLast? = some slash ∧
    slash ∉ leaf ∧ to83 leaf ≠ none ∧ v.catalog (comps par) = some .directory ∧
    v.catalog (comps par ++ [shownName leaf]) ≠ some .directory ∧
    v' = { v with catalog := v.catalog.put (comps par ++ [shownName leaf]) (holding buf) }

/-- A line of a listing: a name, and whether it is a directory's. -/
def nameLine (x : Str × Bool) : Str := x.1 ++ (if x.2 then [slash] else []) ++ [10]

def nameRoom (x : Str × Bool) : Nat := x.1.length + 2

/-- `ns` are the names below the directory `p`, in some order. -/
structure Files.Below (v : Files) (p : List Str) (ns : List (Str × Bool)) : Prop where
  once : (ns.map Prod.fst).Nodup
  all : ∀ n b, (n, b) ∈ ns ↔ n.map upper = n ∧
    ∃ k, v.catalog (p ++ [n]) = some k ∧ (b = true ↔ k = .directory)

/-- The directory that is listed: the current one for the empty path. -/
def Files.listed (v : Files) (path : Str) : Option (List Str) :=
  if path = [] then some (comps v.cwd)
  else
    match abspath v.cwd path with
    | none => none
    | some abs => v.dir abs

def Files.Lists (v : Files) (path : Str) (cap : Nat) (out : Option Str) : Prop :=
  match v.listed path with
  | none => out = none
  | some p => ∃ ns, v.Below p ns ∧ out = some (fill nameLine nameRoom cap [] ns)

/-! ## Reading -/

section

variable {g : Geo} {d : Disk}

theorem Steps.short : ∀ {p : List Str} {r r' : Option Slot}, Steps g d r p r' →
    ∀ q ∈ p, q.length ≤ 12
  | [], _, _, _, q, hq => absurd hq List.not_mem_nil
  | c :: p, r, r', h, q, hq => by
    obtain ⟨sl, hn, hrest⟩ := h
    rcases List.mem_cons.mp hq with rfl | hq
    · have hlen := entryName_length hn.2
      rwa [List.length_map] at hlen
    · exact Steps.short hrest q hq

theorem catalog_dir (ht : Tree g d) {abs : Str} :
    catalog g d (comps abs) = some .directory ↔
      ∃ r, WalksTo g d none abs r ∧ isDir d r = true := by
  rw [catalog_iff ht]
  constructor
  · intro h
    obtain ⟨r, hr, hk⟩ := h
    cases hk with
    | directory hd => exact ⟨r, ⟨hr.short, hr, fun hf => absurd (hd.symm.trans hf) (by simp)⟩, hd⟩
  · intro h
    obtain ⟨r, hw, hd⟩ := h
    exact ⟨r, hw.steps, .directory hd⟩

end

section Calls

variable {f : Vol} {fuel : Nat} (hfuel : f.fatSz * 128 ≤ fuel)

include hfuel

/-- **`fat_read`** looks up. -/
theorem fatRead_files (ht : Tree f.toGeo f.disk) (path : Str) (cap : Nat) :
    ∃ s, fatRead fuel path cap f = some (f.files.read path cap, { f with sec := s }) := by
  unfold Files.read
  cases habs : abspath f.files.cwd path with
  | none =>
    have habs' : abspath f.cwdPath path = none := habs
    exact fatRead_none ht hfuel cap fun abs r h => absurd (habs'.symm.trans h) (by simp)
  | some abs =>
    have habs' : abspath f.cwdPath path = some abs := habs
    dsimp only
    -- anything but a file
    have hother : (∀ r, WalksTo f.toGeo f.disk none abs r → isDir f.disk r = true) →
        ∃ s, fatRead fuel path cap f = some ((none, []), { f with sec := s }) := fun h =>
      fatRead_none ht hfuel cap fun abs' r habs'' hw => by
        obtain rfl := Option.some.inj (habs'.symm.trans habs'')
        exact h r hw
    split
    · next read hc =>
      obtain ⟨r, hr, hk⟩ := (catalog_iff ht).mp hc
      cases hk with
      | @file sl cs hd hcs =>
        by_cases hlast : abs.getLast? = some slash
        · rw [if_pos hlast]
          refine hother fun r' hw => ?_
          by_contra hfile
          exact hw.file (Bool.eq_false_iff.mpr hfile) hlast
        · rw [if_neg hlast]
          exact fatRead_file ht hfuel cap habs' ⟨hr.short, hr, fun _ => hlast⟩ hd hcs
    · next hno =>
      refine hother fun r hw => ?_
      by_contra hfile
      cases r with
      | none => exact hfile rfl
      | some sl =>
        obtain ⟨cs, hcs⟩ := ht.fileChain (hw.steps.ref Ref.root) (Bool.eq_false_iff.mpr hfile)
        exact hno _ ((catalog_iff ht).mpr
          ⟨_, hw.steps, .file (Bool.eq_false_iff.mpr hfile) hcs⟩)

/-- **`fat_write`** puts a file in, or changes nothing; and at every cut it is one or the other. -/
theorem fatWrite_files (h : Sound f) (path : Str) {buf : Str} (hlen : buf.length < 2 ^ 32) :
    ∃ ok f' ws, fatWrite fuel path buf f = some (ok, f') ∧ Sound f' ∧
      (ok = true ∧ f.files.Writes path buf f'.files ∨ ok = false ∧ f'.files = f.files) ∧
      Through f f' ws fun c => f.files.Writes path buf { f.files with catalog := c } ∨
        c = f.files.catalog := by
  have ht := h.tree
  obtain ⟨ok, f', ws, hrun, hran, hin, hcuts⟩ := fatWrite_cuts ht hfuel path buf
  have hend : OldOrNew f path buf f'.disk := by
    rw [hran.disk, ← List.take_length (l := ws)]
    exact hcuts ws.length
  -- a disk that looks new is what a write leaves
  have hwrites : ∀ {d : Disk} {r₀ : Option Slot} {name83 : Str} {sl₀ : Slot},
      Target f path r₀ name83 → New f.toGeo f.disk r₀ name83 buf sl₀ d →
      f.files.Writes path buf { f.files with catalog := catalog f.toGeo d } := by
    intro d r₀ name83 sl₀ htar hnew
    obtain ⟨par, leaf, habs, hpar, hleaf, hw, hto⟩ := htar.path
    refine ⟨par, leaf, habs, hpar, hleaf, by rw [hto]; simp, ?_, ?_, ?_⟩
    · exact (catalog_dir ht).mpr ⟨r₀, hw, htar.dir⟩
    · exact hnew.not_dir ht hw.steps htar.dir hto
    · rw [hnew.catalog ht hw.steps htar.dir hto hlen]
      rfl
  refine ⟨ok, f', ws, hrun, ?_, ?_, hran.disk, hran.geo, hin, fun k => ⟨(hcuts k).tree, ?_⟩⟩
  · obtain ⟨r, hw, hd, hclus⟩ := h.dir
    obtain ⟨hw', hd', hfirst⟩ := hend.dir hw hd
    have hclus' : f'.cwdClus = f.cwdClus := by
      obtain ⟨s, n, rfl⟩ := hran
      rfl
    refine ⟨hran.geo ▸ hend.tree, hran.cwdPath ▸ h.plain, r, ?_, hd', ?_⟩
    · rw [hran.geo, hran.cwdPath]
      exact hw'
    · rw [hclus', hran.geo, hfirst]
      exact hclus
  · have hfiles : f'.files = { f.files with catalog := catalog f.toGeo f'.disk } := by
      unfold Vol.files
      rw [hran.geo, hran.cwdPath]
    obtain ⟨ok', f'', ws', hrun', hres⟩ := fatWrite_spec ht hfuel path buf
    obtain ⟨rfl, rfl⟩ := Prod.mk.inj (Option.some.inj (hrun.symm.trans hrun'))
    have hold : Old f.toGeo f.disk f'.disk → f'.files = f.files := fun ho => by
      rw [hfiles, ho.catalog ht]
      rfl
    rcases hres with ⟨rfl, -, hk⟩ | ⟨r₀, name83, htar, hst⟩
    · exact Or.inr ⟨rfl, hold (Kept.old ht hk.sameOff)⟩
    · cases ok with
      | false => exact Or.inr ⟨rfl, hold (hst.old rfl)⟩
      | true =>
        obtain ⟨sl₀, hnew⟩ := hst.new rfl
        rw [hfiles]
        exact Or.inl ⟨rfl, hwrites htar hnew⟩
  · rcases hcuts k with ho | ⟨r₀, name83, sl₀, htar, hnew⟩
    · exact Or.inr (ho.catalog ht)
    · exact Or.inl (hwrites htar hnew)

/-- **`fat_chdir`** looks up and goes there. -/
theorem fatChdir_files (h : Sound f) (path : Str) :
    ∃ f', fatChdir fuel path f = some ((f.files.chdir path).isSome, f') ∧ Sound f' ∧
      f'.disk = f.disk ∧ f'.toGeo = f.toGeo ∧
      f'.files = { f.files with cwd := (f.files.chdir path).getD f.files.cwd } := by
  have ht := h.tree
  have hsec : ∀ s, Sound { f with sec := s } := fun _ => ⟨h.tree, h.plain, h.dir⟩
  unfold Files.chdir fatChdir
  generalize (if path = [] then [slash] else path) = arg
  cases habs : abspath f.files.cwd arg with
  | none =>
    have habs' : abspath f.cwdPath arg = none := habs
    rw [habs']
    exact ⟨f, rfl, h, rfl, rfl, rfl⟩
  | some abs =>
    have habs' : abspath f.cwdPath arg = some abs := habs
    rw [habs']
    dsimp only
    have hplain := abspath_plain h.plain habs'
    by_cases hex : ∃ r, WalksTo f.toGeo f.disk none abs r
    · obtain ⟨r, hw⟩ := hex
      obtain ⟨s, hrun⟩ := walk_dir_spec ht hfuel hplain hw false 0
      rw [hrun]
      dsimp only
      rw [hitOf_isdir]
      cases hd : isDir f.disk r with
      | true =>
        have hdir : f.files.dir abs = some (comps abs) := by
          unfold Files.dir
          rw [show f.files.catalog (comps abs) = some .directory from
            (catalog_dir ht).mpr ⟨r, hw, hd⟩]
        rw [hdir]
        exact ⟨_, rfl, ⟨ht, hplain, r, hw, hd, hitOf_clus 0 r⟩, rfl, rfl, rfl⟩
      | false =>
        have hdir : f.files.dir abs = none := by
          unfold Files.dir
          split
          · next hc =>
            obtain ⟨r', hw', hd'⟩ := (catalog_dir ht).mp hc
            rw [Steps.unique ht Ref.root hw'.steps hw.steps] at hd'
            exact absurd (hd'.symm.trans hd) (by simp)
          · rfl
        rw [hdir]
        exact ⟨_, rfl, hsec s, rfl, rfl, rfl⟩
    · obtain ⟨s, res, hrun, -, hno⟩ := walk_spec ht hfuel abs false 0
      rw [hrun, hno fun r hw => hex ⟨r, hw⟩]
      have hdir : f.files.dir abs = none := by
        unfold Files.dir
        split
        · next hc =>
          obtain ⟨r', hw', -⟩ := (catalog_dir ht).mp hc
          exact absurd ⟨r', hw'⟩ hex
        · rfl
      rw [hdir]
      exact ⟨_, rfl, hsec s, rfl, rfl, rfl⟩

end Calls

/-! ## Listing -/

section

variable {g : Geo} {d : Disk}

theorem visible_sublist (d : Disk) : ∀ sls : List Slot, ((visible d sls).map Prod.fst).Sublist sls
  | [] => List.Sublist.refl _
  | sl :: sls => by
    rw [visible]
    split
    · exact List.nil_sublist _
    · split
      · exact (visible_sublist d sls).cons sl
      · exact (visible_sublist d sls).cons_cons sl

/-- The visible entries of a directory are its children, with their names. -/
theorem visible_iff (ht : Tree g d) {r : Option Slot} (hr : Ref g d r) (hd : isDir d r = true)
    {cs : List Nat} (hcs : ClusChain g d (first g d r) cs) {x : Slot × Str} :
    x ∈ visible d (slots g cs) ↔ Named g d r x.2 x.1 := by
  rw [mem_visible (ht.clean r cs hr hd hcs)]
  constructor
  · exact fun hx => ⟨⟨hd, cs, hcs, hx.1, _, hx.2⟩, hx.2⟩
  · intro h
    obtain ⟨⟨-, cs', hcs', hmem, -⟩, hn⟩ := h
    exact ⟨hcs'.unique hcs ▸ hmem, hn⟩

/-- A name and whether it is a directory's. -/
def nameOf (d : Disk) (x : Slot × Str) : Str × Bool := (x.2, entIsDir (ent d x.1))

theorem Is.isDir_iff {sl : Slot} {k : Kind} (h : Is g d (some sl) k) :
    entIsDir (ent d sl) = true ↔ k = .directory := by
  cases h with
  | directory hd => exact iff_of_true hd rfl
  | file hd _ =>
    refine iff_of_false (fun hd' => ?_) (by simp)
    exact absurd (hd.symm.trans hd') (by simp)

/-- **The names a listing goes through** are those below the directory. -/
theorem files_below {f : Vol} (ht : Tree f.toGeo f.disk) {p : List Str} {r : Option Slot}
    (hp : Steps f.toGeo f.disk none p r) (hd : isDir f.disk r = true) {cs : List Nat}
    (hcs : ClusChain f.toGeo f.disk (first f.toGeo f.disk r) cs) :
    f.files.Below p ((visible f.disk (slots f.toGeo cs)).map (nameOf f.disk)) := by
  have hr := hp.ref Ref.root
  have hvis := fun x => visible_iff (x := x) ht hr hd hcs
  refine ⟨?_, fun n b => ?_⟩
  · rw [List.map_map]
    refine List.Nodup.map_on (fun x hx y hy hxy => ?_)
      ((slots_nodup ht.geo hcs).sublist (visible_sublist f.disk _)).of_map
    have hname : x.2 = y.2 := hxy
    have hy' := (hvis y).mp hy
    rw [← hname] at hy'
    exact Prod.ext (Named.unique ht hr ((hvis x).mp hx) hy') hname
  · constructor
    · intro hmem
      obtain ⟨⟨sl, nm⟩, hx, he⟩ := List.mem_map.mp hmem
      obtain ⟨rfl, rfl⟩ := Prod.mk.inj he
      have hn : Named f.toGeo f.disk r nm sl := (hvis _).mp hx
      have hsl := Ref.entry hr hn.1
      have hup : nm.map upper = nm := by
        obtain ⟨base, ext, hbx, hraw⟩ := ht.valid sl hsl
        have hshown := (entryName_valid (live_of_entryName hn.2) hbx hraw).symm.trans hn.2
        rw [← Option.some.inj hshown, render_upper hbx]
      obtain ⟨k, hk⟩ := ht.is hsl
      refine ⟨hup, k, (catalog_iff ht).mpr ⟨some sl, Steps.concat.mpr ⟨r, sl, hp, ?_, rfl⟩, hk⟩,
        hk.isDir_iff⟩
      rw [hup]
      exact hn
    · rintro ⟨hup, k, hk, hb⟩
      obtain ⟨_, hst, his⟩ := (catalog_iff ht).mp hk
      obtain ⟨a, sl, ha, hsl, rfl⟩ := Steps.concat.mp hst
      rw [Steps.unique ht Ref.root ha hp, hup] at hsl
      have hb' : b = entIsDir (ent f.disk sl) := by
        rw [Bool.eq_iff_iff]
        exact hb.trans his.isDir_iff.symm
      rw [hb']
      exact List.mem_map.mpr ⟨(sl, n), (hvis _).mpr hsl, rfl⟩

end

/-- **`fat_list`** goes through the names below a directory, or fails and stores nothing. -/
theorem fatList_files {f : Vol} (h : Sound f) {fuel : Nat} (hfuel : f.fatSz * 128 ≤ fuel)
    (path : Str) (cap : Nat) : ∃ out s, fatList fuel path cap f = some (out, { f with sec := s }) ∧
      f.files.Lists path cap out ∧ listOut fuel path cap f = out.getD [] := by
  have ht := h.tree
  -- a directory
  have hyes : ∀ {p : List Str} {r : Option Slot}, f.files.listed path = some p →
      Steps f.toGeo f.disk none p r → ListsDir f path r →
      ∃ out s, fatList fuel path cap f = some (out, { f with sec := s }) ∧
        f.files.Lists path cap out ∧ listOut fuel path cap f = out.getD [] := by
    intro p r hlisted hp hdir
    obtain ⟨hd, hr⟩ := hdir.ref
    obtain ⟨cs, hcs⟩ := ht.dirChain hr hd
    obtain ⟨s, hrun⟩ := fatList_spec ht h.plain hfuel hdir hcs cap
    refine ⟨_, s, hrun, ?_, listOut_eq hrun⟩
    unfold Files.Lists
    rw [hlisted]
    refine ⟨_, files_below ht hp hd hcs, ?_⟩
    rw [fill_map]
    rfl
  by_cases hne : path = []
  · obtain ⟨r, hw, hd, hclus⟩ := h.dir
    refine hyes (p := comps f.files.cwd) (r := r) ?_ hw.steps
      ⟨hd, Or.inl ⟨hne, hw.steps.ref Ref.root, hclus⟩⟩
    unfold Files.listed
    rw [if_pos hne]
  · cases habs : abspath f.files.cwd path with
    | none =>
      have habs' : abspath f.cwdPath path = none := habs
      refine ⟨none, f.sec, ?_, ?_, ?_⟩
      · rw [fatList_eq, habs']
      · unfold Files.Lists Files.listed
        rw [if_neg hne, habs]
      · unfold listOut
        rw [habs']
        rfl
    | some abs =>
      have habs' : abspath f.cwdPath path = some abs := habs
      have hlisted : f.files.listed path = f.files.dir abs := by
        unfold Files.listed
        rw [if_neg hne, habs]
      have hdir : ∀ {r : Option Slot}, WalksTo f.toGeo f.disk none abs r → isDir f.disk r = true →
          f.files.dir abs = some (comps abs) := fun hw hd => by
        unfold Files.dir
        rw [show f.files.catalog (comps abs) = some .directory from
          (catalog_dir ht).mpr ⟨_, hw, hd⟩]
      -- no directory
      have hno : (∀ r, WalksTo f.toGeo f.disk none abs r → isDir f.disk r = false) →
          f.files.dir abs = none := fun hall => by
        unfold Files.dir
        split
        · next hc =>
          obtain ⟨r, hw, hd⟩ := (catalog_dir ht).mp hc
          exact absurd (hd.symm.trans (hall r hw)) (by simp)
        · rfl
      by_cases hex : ∃ r, WalksTo f.toGeo f.disk none abs r
      · obtain ⟨r, hw⟩ := hex
        cases hd : isDir f.disk r with
        | true =>
          exact hyes (hlisted.trans (hdir hw hd)) hw.steps ⟨hd, Or.inr ⟨hne, abs, habs', hw⟩⟩
        | false =>
          have hnone := hno fun r' hw' => by
            rw [Steps.unique ht Ref.root hw'.steps hw.steps]
            exact hd
          obtain ⟨s, hrun⟩ := walk_dir_spec ht hfuel (abspath_plain h.plain habs') hw false 0
          refine ⟨none, s, ?_, ?_, ?_⟩
          · rw [fatList_eq, habs']
            dsimp only
            rw [if_neg hne, hrun]
            dsimp only
            rw [hitOf_isdir, hd]
            rfl
          · unfold Files.Lists
            rw [hlisted, hnone]
          · unfold listOut
            rw [habs']
            dsimp only
            rw [if_neg hne, hrun]
            dsimp only
            rw [hitOf_isdir, hd]
            rfl
      · have hnone := hno fun r hw => absurd ⟨r, hw⟩ hex
        obtain ⟨s, res, hrun, -, hres⟩ := walk_spec ht hfuel abs false 0
        rw [hres fun r hw => hex ⟨r, hw⟩] at hrun
        refine ⟨none, s, ?_, ?_, ?_⟩
        · rw [fatList_eq, habs']
          dsimp only
          rw [if_neg hne, hrun]
        · unfold Files.Lists
          rw [hlisted, hnone]
        · unfold listOut
          rw [habs']
          dsimp only
          rw [if_neg hne, hrun]
          rfl

end InaneOS.Fat
