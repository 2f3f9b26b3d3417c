import InaneOS.Fat.Endless
import InaneOS.Fat.PathBuf
import InaneOS.Lib.Fill

/-!
# What `fat_list` shows and what `walk` finds

`fat_list` and `walk` filter the slots of a directory in two loops of their own. Both
select the visible entries: those before the first terminator that `entry_name` accepts
(`visible`). `fat_list` fills its buffer with their lines (`list_fold`), so what it
returns is a prefix of them, cut at the first that has no room (`Lib.Fill`); and the
children that `walk` steps to are the same entries, found by their names
(`mem_visible`). A name is therefore resolved exactly when it is listed
(`list_walk_agree`).
-/

namespace InaneOS.Fat

open InaneOS.Lib

/-! ## Visible entries -/

/-- The entries a reader sees in the slots, in disk order, with their names. -/
def visible (d : Disk) : List Slot → List (Slot × Str)
  | [] => []
  | sl :: sls =>
    if ent d sl 0 = 0 then []
    else
      match entryName (ent d sl) with
      | none => visible d sls
      | some nm => (sl, nm) :: visible d sls

/-- The line of an entry: its name, a slash for a directory, a newline. -/
def listLine (d : Disk) (x : Slot × Str) : Str :=
  x.2 ++ (if entIsDir (ent d x.1) then [slash] else []) ++ [10]

/-- The room `fat_list` asks for before it stores a line. -/
def lineRoom (x : Slot × Str) : Nat := x.2.length + 2

theorem listLine_length_le (d : Disk) (x : Slot × Str) : (listLine d x).length ≤ lineRoom x := by
  unfold listLine lineRoom
  rw [List.length_append, List.length_append, List.length_singleton]
  split
  · rw [List.length_singleton]
  · rw [List.length_nil]
    omega

theorem lineRoom_le (d : Disk) (x : Slot × Str) : lineRoom x ≤ (listLine d x).length + 1 := by
  unfold listLine lineRoom
  rw [List.length_append, List.length_append, List.length_singleton]
  omega

/-- In a directory with clean terminators the visible entries are the slots with a name. -/
theorem mem_visible {d : Disk} {x : Slot × Str} : ∀ {sls : List Slot},
    sls.Pairwise (fun a b => ent d a 0 = 0 → ent d b 0 = 0) →
    (x ∈ visible d sls ↔ x.1 ∈ sls ∧ entryName (ent d x.1) = some x.2)
  | [], _ => by simp [visible]
  | sl :: sls, hclean => by
    rw [List.pairwise_cons] at hclean
    have ih := mem_visible (x := x) hclean.2
    rw [visible]
    by_cases h0 : ent d sl 0 = 0
    · -- a terminator: nothing behind it has a name
      rw [if_pos h0]
      refine iff_of_false (List.not_mem_nil) ?_
      intro h
      obtain ⟨hmem, hn⟩ := h
      rcases List.mem_cons.mp hmem with heq | hmem
      · exact (live_of_entryName hn).1 (heq ▸ h0)
      · exact (live_of_entryName hn).1 (hclean.1 _ hmem h0)
    · rw [if_neg h0]
      cases hn : entryName (ent d sl) with
      | none =>
        dsimp only
        rw [ih, List.mem_cons]
        refine ⟨fun h => ⟨Or.inr h.1, h.2⟩, fun h => ⟨h.1.resolve_left fun heq => ?_, h.2⟩⟩
        rw [heq, hn] at h
        exact absurd h.2 (by simp)
      | some nm =>
        dsimp only
        rw [List.mem_cons, ih, List.mem_cons]
        constructor
        · intro hx
          rcases hx with rfl | h
          · exact ⟨Or.inl rfl, hn⟩
          · exact ⟨Or.inr h.1, h.2⟩
        · intro h
          obtain ⟨heq | hmem, hx⟩ := h
          · left
            rw [heq, hn, Option.some.injEq] at hx
            exact Prod.ext heq hx.symm
          · exact Or.inr ⟨hmem, hx⟩

/-! ## The listing -/

/-- The bytes a listing ends with. -/
def listed : Except (Option Str) Str → Option Str
  | .ok out => some out
  | .error r => r

/-- **The entry loop of `fat_list` fills the buffer with lines.** -/
theorem list_fold (d : Disk) (cap : Nat) : ∀ (sls : List Slot) (out : Str),
    listed (sls.foldlM (atSlot (listBody cap) d) out) =
      some (fill (listLine d) lineRoom cap out (visible d sls))
  | [], out => rfl
  | sl :: sls, out => by
    rw [List.foldlM_cons, visible]
    have hstep : atSlot (listBody cap) d out sl =
        if ent d sl 0 = 0 then .error (some out)
        else
          match entryName (ent d sl) with
          | none => .ok out
          | some nm =>
            if out.length + nm.length + 2 > cap then .error (some out)
            else .ok (out ++ nm ++ (if entIsDir (ent d sl) then [slash] else []) ++ [10]) := rfl
    rw [hstep]
    by_cases h0 : ent d sl 0 = 0
    · rw [if_pos h0, if_pos h0]
      rfl
    · rw [if_neg h0, if_neg h0]
      cases hn : entryName (ent d sl) with
      | none => exact list_fold d cap sls out
      | some nm =>
        dsimp only
        rw [fill]
        by_cases hfull : out.length + nm.length + 2 > cap
        · have hroom : out.length + lineRoom (sl, nm) > cap := hfull
          rw [if_pos hfull, if_pos hroom]
          rfl
        · have hroom : ¬ out.length + lineRoom (sl, nm) > cap := hfull
          rw [if_neg hfull, if_neg hroom]
          have hline : out ++ nm ++ (if entIsDir (ent d sl) then [slash] else []) ++ [10] =
              out ++ listLine d (sl, nm) := by
            unfold listLine
            simp only [List.append_assoc]
          rw [hline]
          exact list_fold d cap sls _

/-- Listing a directory of a sound tree. -/
theorem listScan_spec {f : Vol} (ht : Tree f.toGeo f.disk) {r : Option Slot}
    (hr : Ref f.toGeo f.disk r) (hd : isDir f.disk r = true) {cs : List Nat}
    (hcs : ClusChain f.toGeo f.disk (first f.toGeo f.disk r) cs) {fuel : Nat}
    (hfuel : f.fatSz * 128 ≤ fuel) (cap : Nat) :
    ∃ s, listScan fuel cap (first f.toGeo f.disk r) f =
      some (some (fill (listLine f.disk) lineRoom cap [] (visible f.disk (slots f.toGeo cs))),
        { f with sec := s }) := by
  obtain ⟨res, f', hrun, hfold, ⟨s, rfl⟩, -⟩ := ht.scan none (listBody cap) hr hd hcs hfuel 0 []
  have hlist := list_fold f.disk cap (slots f.toGeo cs) []
  rw [hfold] at hlist
  refine ⟨s, ?_⟩
  unfold listScan
  rw [hrun]
  cases res with
  | ok out => rw [← hlist]; rfl
  | error o => rw [← hlist]; rfl

/-- `path` is a way to have `fat_list` list the directory `r`. -/
def ListsDir (f : Vol) (path : Str) (r : Option Slot) : Prop :=
  isDir f.disk r = true ∧ (path = [] ∧ Ref f.toGeo f.disk r ∧ f.cwdClus = first f.toGeo f.disk r ∨
    path ≠ [] ∧ ∃ abs, abspath f.cwdPath path = some abs ∧ WalksTo f.toGeo f.disk none abs r)

/-- `walk` to a directory by a path that `abspath` made. -/
theorem walk_dir_spec {f : Vol} (ht : Tree f.toGeo f.disk) {fuel : Nat}
    (hfuel : f.fatSz * 128 ≤ fuel) {abs : Str} (hplain : Plain abs) {r : Option Slot}
    (hw : WalksTo f.toGeo f.disk none abs r) (isdir : Bool) (size : Nat) :
    ∃ s, walk fuel abs isdir size f = some (some (hitOf f.toGeo f.disk size r),
      { f with sec := s }) := by
  by_cases hc : comps abs = []
  · rw [hplain.root hc] at hw ⊢
    have hr : none = r := hw.steps
    subst hr
    exact ⟨f.sec, rfl⟩
  · obtain ⟨s, res, hrun, hyes, -⟩ := walk_spec ht hfuel abs isdir size
    rcases hyes r hw with rfl | ⟨hcs, -⟩
    · exact ⟨s, hrun⟩
    · exact absurd hcs hc

/-- **`fat_list`** of a directory. -/
theorem fatList_spec {f : Vol} (ht : Tree f.toGeo f.disk) (hcwd : Plain f.cwdPath) {fuel : Nat}
    (hfuel : f.fatSz * 128 ≤ fuel) {path : Str} {r : Option Slot} (hdir : ListsDir f path r)
    {cs : List Nat} (hcs : ClusChain f.toGeo f.disk (first f.toGeo f.disk r) cs) (cap : Nat) :
    ∃ s, fatList fuel path cap f =
      some (some (fill (listLine f.disk) lineRoom cap [] (visible f.disk (slots f.toGeo cs))),
        { f with sec := s }) := by
  obtain ⟨hd, ⟨rfl, hr, hclus⟩ | ⟨hne, abs, habs, hw⟩⟩ := hdir
  · obtain ⟨s, hlist⟩ := listScan_spec ht hr hd hcs hfuel cap
    refine ⟨s, ?_⟩
    rw [fatList_eq, show abspath f.cwdPath [] = some (cwdOut f.cwdPath) from rfl]
    dsimp only
    rw [← hclus] at hlist
    rw [if_pos rfl, hlist]
  · obtain ⟨s, hwalk⟩ := walk_dir_spec ht hfuel (abspath_plain hcwd habs) hw false 0
    obtain ⟨s', hlist⟩ := @listScan_spec { f with sec := s } ht r (hw.steps.ref Ref.root) hd cs hcs
      fuel hfuel cap
    refine ⟨s', ?_⟩
    rw [fatList_eq, habs]
    dsimp only
    rw [if_neg hne, hwalk]
    dsimp only
    rw [hitOf_isdir, hd, if_neg (by simp), hitOf_clus]
    exact hlist

/-! ## Names -/

theorem entryName_length {e : Nat → UInt8} {nm : Str} (h : entryName e = some nm) :
    nm.length ≤ 12 := by
  unfold entryName at h
  dsimp only at h
  have hbase := (List.takeWhile_sublist (l := (List.range 8).map e) (· != blank)).length_le
  have hext := (List.takeWhile_sublist
    (l := (List.range 3).map fun i => e (8 + i)) (· != blank)).length_le
  rw [List.length_map, List.length_range] at hbase hext
  generalize ((List.range 8).map e).takeWhile (· != blank) = base at h hbase
  generalize ((List.range 3).map fun i => e (8 + i)).takeWhile (· != blank) = ext at h hext
  have hout : (cstr (if e 8 ≠ blank then base ++ dot :: ext else base)).length ≤ 12 := by
    refine Nat.le_trans (List.takeWhile_sublist _).length_le ?_
    split
    · rw [List.length_append, List.length_cons]
      omega
    · omega
  generalize cstr (if e 8 ≠ blank then base ++ dot :: ext else base) = out at h hout
  split at h
  next => exact absurd h (by simp)
  next =>
    split at h
    next => exact absurd h (by simp)
    next =>
      split at h
      next => exact absurd h (by simp)
      next => exact Option.some.inj h ▸ hout

/-- One more component behind a path to a directory. -/
theorem walksTo_below {g : Geo} {d : Disk} (ht : Tree g d) {abs nm : Str} {r r' : Option Slot}
    (hw : WalksTo g d none abs r) (hne : nm ≠ []) (hs : slash ∉ nm) :
    WalksTo g d none (abs ++ slash :: nm) r' ↔
      nm.length ≤ 12 ∧ ∃ sl, Named g d r (nm.map upper) sl ∧ r' = some sl := by
  have hcons : abs ++ slash :: nm = (abs ++ [slash]) ++ nm := by simp
  have hcs : comps (abs ++ slash :: nm) = comps abs ++ [nm] := by
    rw [hcons, comps_leaf (by simp) hs hne, comps, pieces_append_sep]
    simp [comps, pieces_nil]
  have hlast : (abs ++ slash :: nm).getLast? ≠ some slash := by
    rw [hcons, List.getLast?_append_of_ne_nil _ hne, List.getLast?_eq_some_getLast hne]
    intro h
    exact hs (Option.some.inj h ▸ List.getLast_mem hne)
  constructor
  · intro h
    obtain ⟨hshort, hsteps, -⟩ := h
    rw [hcs] at hshort hsteps
    obtain ⟨a, ha, sl, hsl, hrest⟩ := hsteps.split
    rw [Steps.unique ht Ref.root ha hw.steps] at hsl
    exact ⟨hshort nm (by simp), sl, hsl, hrest.symm⟩
  · intro h
    obtain ⟨hlen, sl, hsl, rfl⟩ := h
    refine ⟨fun q hq => ?_, ?_, fun _ => hlast⟩
    · rw [hcs] at hq
      rcases List.mem_append.mp hq with hq | hq
      · exact hw.short q hq
      · rw [List.mem_singleton.mp hq]
        exact hlen
    · rw [hcs]
      exact hw.steps.append ⟨sl, hsl, rfl⟩

/-- The current directory of every state reached after mounting is `Plain`. -/
theorem reached_plain {part : Nat} {f₀ f g : Vol} (hm : fatMount part f₀ = (true, f))
    {cs : List FatCall} (h : Reached f cs g) : Plain g.cwdPath := by
  induction h with
  | refl => exact Or.inl (fatMount_cwd hm).1
  | step _ hrun ih =>
    rcases FatCall.run_cases hrun with hmoved | ⟨path, abs, hit, f₂, -, habs, -, -, rfl⟩
    · rw [hmoved.cwdPath]
      exact ih
    · exact abspath_plain ih habs

theorem ListsDir.ref {f : Vol} {path : Str} {r : Option Slot} (h : ListsDir f path r) :
    isDir f.disk r = true ∧ Ref f.toGeo f.disk r := by
  obtain ⟨hd, ⟨-, hr, -⟩ | ⟨-, abs, -, hw⟩⟩ := h
  · exact ⟨hd, hr⟩
  · exact ⟨hd, hw.steps.ref Ref.root⟩

/-- **Listing and lookup agree.** A listing is the lines of the visible entries of the
directory in disk order, cut at the first that has no room; and a name below the
directory is resolved exactly when its upper-cased form is the name of a visible entry,
to that entry's cluster, kind and size. -/
theorem list_walk_agree {f : Vol} (hwf : WellFormed f.toGeo f.disk) (hcwd : Plain f.cwdPath)
    {fuel : Nat} (hfuel : f.fatSz * 128 ≤ fuel) {path : Str} {r : Option Slot}
    (hdir : ListsDir f path r) :
    ∃ cs, ClusChain f.toGeo f.disk (first f.toGeo f.disk r) cs ∧
      (∀ cap, ∃ stored f',
        fatList fuel path cap f = some (some (stored.flatMap (listLine f.disk)), f') ∧
        Stores (listLine f.disk) lineRoom cap (visible f.disk (slots f.toGeo cs)) stored ∧
        (stored.flatMap (listLine f.disk)).length ≤ cap ∧
        (((visible f.disk (slots f.toGeo cs)).flatMap (listLine f.disk)).length + 1 ≤ cap →
          stored = visible f.disk (slots f.toGeo cs))) ∧
      ∀ abs nm, WalksTo f.toGeo f.disk none abs r → nm ≠ [] → slash ∉ nm → ∀ isdir size,
        ∃ res f', walk fuel (abs ++ slash :: nm) isdir size f = some (res, f') ∧
          ∀ h, res = some h ↔ ∃ x ∈ visible f.disk (slots f.toGeo cs), x.2 = nm.map upper ∧
            h = hitOf f.toGeo f.disk size (some x.1) := by
  have ht := hwf.tree
  obtain ⟨hd, hr⟩ := hdir.ref
  obtain ⟨cs, hcs⟩ := ht.dirChain hr hd
  refine ⟨cs, hcs, fun cap => ?_, fun abs nm hw hne hs isdir size => ?_⟩
  · obtain ⟨s, hrun⟩ := fatList_spec ht hcwd hfuel hdir hcs cap
    obtain ⟨stored, hfill, hst⟩ := fill_prefix (listLine f.disk) lineRoom cap
      (visible f.disk (slots f.toGeo cs)) [] (by simp)
    rw [List.flatMap_nil] at hfill
    rw [hfill] at hrun
    exact ⟨stored, _, hrun, hst, hst.length_le (listLine_length_le f.disk),
      hst.all (lineRoom_le f.disk)⟩
  · obtain ⟨s, res, hrun, hyes, hno⟩ := walk_spec ht hfuel (abs ++ slash :: nm) isdir size
    have hbelow := fun r' => @walksTo_below _ _ ht abs nm r r' hw hne hs
    -- a visible entry is a child of that name
    have hvis : ∀ {x : Slot × Str}, x ∈ visible f.disk (slots f.toGeo cs) ↔
        Named f.toGeo f.disk r x.2 x.1 := by
      intro x
      rw [mem_visible (ht.clean r cs hr hd hcs)]
      constructor
      · exact fun hx => ⟨⟨hd, cs, hcs, hx.1, _, hx.2⟩, hx.2⟩
      · intro h
        obtain ⟨⟨-, cs', hcs', hmem, -⟩, hn⟩ := h
        exact ⟨hcs'.unique hcs ▸ hmem, hn⟩
    have hcomps : comps (abs ++ slash :: nm) ≠ [] := by
      rw [comps, pieces_append_sep, pieces_word hs hne]
      simp
    refine ⟨res, _, hrun, fun h => ⟨fun hres => ?_, ?_⟩⟩
    · by_cases hex : ∃ r', WalksTo f.toGeo f.disk none (abs ++ slash :: nm) r'
      · obtain ⟨r', hr'⟩ := hex
        obtain ⟨-, sl, hsl, rfl⟩ := (hbelow r').mp hr'
        refine ⟨(sl, nm.map upper), hvis.mpr hsl, rfl, ?_⟩
        rcases hyes _ hr' with hyes | ⟨hc, -⟩
        · exact Option.some.inj (hres.symm.trans hyes)
        · exact absurd hc hcomps
      · rw [hno fun r' hr' => hex ⟨r', hr'⟩] at hres
        exact absurd hres (by simp)
    · intro h
      obtain ⟨⟨sl, nm'⟩, hx, rfl, rfl⟩ := h
      have hsl := hvis.mp hx
      have hlen : nm.length ≤ 12 := by
        have := entryName_length hsl.2
        rwa [List.length_map] at this
      rcases hyes _ ((hbelow (some sl)).mpr ⟨hlen, sl, hsl, rfl⟩) with hyes | ⟨hc, -⟩
      · exact hyes
      · exact absurd hc hcomps

/-- The sample's current directory `/A` lists its file `F`, and `/A/f` resolves to it. -/
theorem list_walk_agree_sample : (∃ f', fatList 128 [] 10 sampleVol = some (some [70, 10], f')) ∧
    ∃ f', walk 128 [slash, 65, slash, 102] false 0 sampleVol = some (some ⟨4, false, 3⟩, f') := by
  have hw := longA_walksTo 0
  have hd : isDir sampleVol.disk (some (4, 0)) = true := by decide +kernel
  have hclus : sampleVol.cwdClus = first sampleVol.toGeo sampleVol.disk (some (4, 0)) := by
    decide +kernel
  have hdir : ListsDir sampleVol [] (some (4, 0)) :=
    ⟨hd, Or.inl ⟨rfl, hw.steps.ref Ref.root, hclus⟩⟩
  obtain ⟨cs, hcs, hlist, hwalk⟩ := list_walk_agree sampleVol_certified.wellFormed
    (Or.inr ⟨65, [], rfl, by decide⟩) (show sampleVol.fatSz * 128 ≤ 128 by decide) hdir
  obtain rfl : cs = [3] := hcs.unique (clusChain_of_chainOk (by decide +kernel))
  have hvis : visible sampleVol.disk (slots sampleVol.toGeo [3]) = [((5, 0), [70])] := by
    decide +kernel
  rw [hvis] at hlist hwalk
  constructor
  · obtain ⟨stored, f', hrun, -, -, hall⟩ := hlist 10
    have hlines : [((5, 0), [70])].flatMap (listLine sampleVol.disk) = [70, 10] := by decide +kernel
    rw [hall (by rw [hlines]; decide), hlines] at hrun
    exact ⟨f', hrun⟩
  · obtain ⟨res, f', hrun, hres⟩ := hwalk [slash, 65] [102] hw (by simp) (by decide)
      false 0
    rw [(hres ⟨4, false, 3⟩).mpr ⟨((5, 0), [70]), by simp, by decide, by decide +kernel⟩] at hrun
    exact ⟨f', hrun⟩

end InaneOS.Fat
