import InaneOS.Fat.Store

/-!
# `fat_write` as a whole

`fat_write` resolves the parent with `walk` and the leaf with `to83` and `lookup`
(`Target`), and then stores the file. `fatWrite_spec` puts the pieces together:
the call ends, and at every cut and at its end the disk is old or new.

On the reading side the same path leads to the new entry (`Target.walksTo`),
provided its last component does not end in a dot: `to83` ignores such a dot and
`name_match` does not.
-/

namespace InaneOS.Fat

open InaneOS.Lib

/-- `path` names the entry `name83` of the directory `r₀`, the way `fat_write` reads
it. -/
structure Target (f : Vol) (path : Str) (r₀ : Option Slot) (name83 : Str) : Prop where
  path : ∃ par leaf, abspath f.cwdPath path = some (par ++ leaf) ∧ par.getLast? = some slash ∧
    slash ∉ leaf ∧ WalksTo f.toGeo f.disk none par r₀ ∧ to83 leaf = some name83
  dir : isDir f.disk r₀ = true

theorem Target.ref {f : Vol} {path : Str} {r₀ : Option Slot} {name83 : Str}
    (h : Target f path r₀ name83) : Ref f.toGeo f.disk r₀ := by
  obtain ⟨par, leaf, -, -, -, hw, -⟩ := h.path
  exact hw.steps.ref Ref.root

/-- The entry `path` names is in slot `sl`. -/
def NamedBy (f : Vol) (path : Str) (sl : Slot) : Prop :=
  ∃ r₀ name83, Target f path r₀ name83 ∧ Holding f.toGeo f.disk r₀ name83 sl

theorem Stored.ofSec {f f' : Vol} {s : Sector} {ws : List (Nat × Sector)} {r₀ : Option Slot}
    {name83 buf : Str} {ok : Bool} (h : Stored { f with sec := s } f' ws r₀ name83 buf ok) :
    Stored f f' ws r₀ name83 buf ok :=
  ⟨h.ran.ofSec, h.inside, h.copies, h.cuts, h.new, h.old⟩

/-- The result of `lookup`, for `storeFile`: the name is new, or it is a file's. -/
def Sought (f : Vol) (r₀ : Option Slot) (name83 : Str) (found : Option Found) : Prop :=
  found = none ∧ (∀ sl, ¬ Holding f.toGeo f.disk r₀ name83 sl) ∨
    ∃ fd sl, found = some fd ∧ Holding f.toGeo f.disk r₀ name83 sl ∧
      isDir f.disk (some sl) = false ∧ fd.lba = sl.1 ∧ fd.off = sl.2 ∧
      fd.clus = entClus (ent f.disk sl)

/-- `fat_write` from the name on: it refuses to replace a directory, or stores the file. -/
theorem storeNamed {f : Vol} (ht : Tree f.toGeo f.disk) {fuel : Nat}
    (hfuel : f.fatSz * 128 ≤ fuel) {r₀ : Option Slot} (hr : Ref f.toGeo f.disk r₀)
    (hd : isDir f.disk r₀ = true) {leaf name83 : Str} (hto : to83 leaf = some name83) (buf : Str)
    {res : Option (Bool × Vol)} (hres : res =
      match lookup fuel (first f.toGeo f.disk r₀) name83 f with
      | none => none
      | some (none, f₁) => storeFile fuel (first f.toGeo f.disk r₀) name83 none buf f₁
      | some (some fd, f₁) =>
        if fd.isdir then some (false, f₁)
        else storeFile fuel (first f.toGeo f.disk r₀) name83 (some fd) buf f₁) :
    ∃ s, res = some (false, { f with sec := s }) ∨
      ∃ found, Sought f r₀ name83 found ∧
        res = storeFile fuel (first f.toGeo f.disk r₀) name83 found buf { f with sec := s } := by
  obtain ⟨base, ext, hp, hname, h5, -⟩ := to83_spec hto
  obtain ⟨s, found, hrun, hyes, hno⟩ := lookup_spec ht hr hd hfuel hp hname
  rw [hrun] at hres
  refine ⟨s, ?_⟩
  by_cases hex : ∃ sl, Holding f.toGeo f.disk r₀ name83 sl
  · obtain ⟨sl, hsl⟩ := hex
    rw [hyes sl hsl] at hres
    dsimp only at hres
    by_cases hdir : entIsDir (ent f.disk sl) = true
    · rw [if_pos hdir] at hres
      exact Or.inl hres
    · rw [if_neg hdir] at hres
      exact Or.inr ⟨_, Or.inr ⟨_, sl, rfl, hsl, Bool.eq_false_iff.mpr hdir, rfl, rfl, rfl⟩, hres⟩
  · have hnone : ∀ sl, ¬ Holding f.toGeo f.disk r₀ name83 sl := fun sl hsl => hex ⟨sl, hsl⟩
    rw [hno hnone] at hres
    exact Or.inr ⟨none, Or.inl ⟨rfl, hnone⟩, hres⟩

/-- A leaf that `to83` accepts has at least one and at most 12 bytes. -/
theorem to83_length {leaf name83 : Str} (h : to83 leaf = some name83) :
    leaf ≠ [] ∧ leaf.length ≤ 12 := by
  obtain ⟨base, ext, hp, -, -, hin⟩ := to83_spec h
  refine ⟨?_, ?_⟩
  · intro he
    subst he
    simp [to83, take83] at h
  · have hb := hp.base_le
    have hx := hp.ext_le
    rcases hin with ⟨hmap, -⟩ | hmap
    · rw [← hmap, List.length_map] at hb
      omega
    · have hlen := congrArg List.length hmap
      rw [List.length_map, List.length_append, List.length_cons] at hlen
      omega

/-- `fat_write` from `lookup` on. -/
def storeAt (fuel clus : Nat) (name83 buf : Str) (f : Vol) : Option (Bool × Vol) :=
  match lookup fuel clus name83 f with
  | none => none
  | some (none, f) => storeFile fuel clus name83 none buf f
  | some (some fd, f) => if fd.isdir then some (false, f)
    else storeFile fuel clus name83 (some fd) buf f

/-- `fat_write` from `walk` on, for the parent `par` and the last component `leaf`. -/
def storeBelow (fuel : Nat) (par leaf buf : Str) (f : Vol) : Option (Bool × Vol) :=
  match walk fuel par false 0 f with
  | none => none
  | some (none, f) => some (false, f)
  | some (some h, f) =>
    if !h.isdir then some (false, f)
    else
      match to83 leaf with
      | none => some (false, f)
      | some name83 => storeAt fuel h.clus name83 buf f

/-- `fat_write` takes the path apart at its last slash. -/
theorem fatWrite_parse (fuel : Nat) (path buf : Str) (f : Vol) :
    (fatWrite fuel path buf f = some (false, f) ∧ ∀ par leaf name83,
      abspath f.cwdPath path = some (par ++ leaf) →
      par.getLast? = some slash → slash ∉ leaf → to83 leaf ≠ some name83) ∨
    ∃ a v par, abspath f.cwdPath path = some ((a ++ [slash]) ++ v) ∧ slash ∉ v ∧
      (v ≠ [] → par = a ++ [slash]) ∧ fatWrite fuel path buf f = storeBelow fuel par v buf f := by
  have hdef : fatWrite fuel path buf f = fatWrite fuel path buf f := rfl
  conv at hdef => rhs; unfold fatWrite
  cases ha : abspath f.cwdPath path with
  | none =>
    rw [ha] at hdef
    exact Or.inl ⟨hdef, fun _ _ _ h => by simp at h⟩
  | some abs =>
    rw [ha] at hdef
    dsimp only at hdef
    rcases exists_last abs with hnone | ⟨a, v, rfl, hv⟩
    · rw [lastSlash_none hnone] at hdef
      refine Or.inl ⟨hdef, fun par leaf _ h hpar _ => ?_⟩
      rw [Option.some.inj h] at hnone
      exact absurd (List.mem_append_left leaf (List.mem_of_getLast? hpar)) hnone
    · rw [lastSlash_append hv, Nat.zero_add] at hdef
      dsimp only at hdef
      obtain ⟨hlen, -, -⟩ := abspath_spec ha
      rw [List.length_append, List.length_cons] at hlen
      have hcons : a ++ slash :: v = (a ++ [slash]) ++ v := by simp
      have hal : (a ++ [slash]).length = a.length + 1 := by simp
      have hdrop : (a ++ slash :: v).drop (a.length + 1) = v := by
        rw [hcons, ← hal, List.drop_left]
      rw [hdrop] at hdef
      by_cases hlong : 12 < v.length
      · rw [if_pos ?_] at hdef
        · refine Or.inl ⟨hdef, fun par leaf name83 h hpar hleaf hto => ?_⟩
          obtain ⟨b, rfl⟩ := List.getLast?_eq_some_iff.mp hpar
          rw [List.append_assoc, List.singleton_append, Option.some.injEq] at h
          have hleaf12 := (to83_length hto).2
          rw [(last_unique h hv hleaf).2] at hlong
          omega
        · rw [← List.drop_drop, hdrop]
          simpa using hlong
      · have htake : v.take 12 = v := List.take_of_length_le (by omega)
        rw [htake, if_neg (by rw [← List.drop_drop, hdrop]; simp)] at hdef
        have hpne : (a ++ slash :: v).take (min (a.length + 1) 255) ≠ [] := by
          have hpos : 0 < min (a.length + 1) 255 := by omega
          simp only [ne_eq, List.take_eq_nil_iff, not_or]
          exact ⟨by omega, by simp⟩
        rw [if_neg hpne] at hdef
        refine Or.inr ⟨a, v, _, by rw [hcons], hv, fun hvne => ?_, hdef⟩
        -- a leaf leaves room for its parent in the buffer
        have hvpos : 0 < v.length := List.length_pos_iff.mpr hvne
        rw [Nat.min_eq_left (by omega), hcons, ← hal, List.take_left]

/-- `fat_write` fails without a write, or it has a target and stores the file there. -/
theorem fatWrite_cases {f : Vol} (ht : Tree f.toGeo f.disk) {fuel : Nat}
    (hfuel : f.fatSz * 128 ≤ fuel) (path buf : Str) :
    ∃ s, fatWrite fuel path buf f = some (false, { f with sec := s }) ∨
      ∃ r₀ name83 found, Target f path r₀ name83 ∧ Sought f r₀ name83 found ∧
        fatWrite fuel path buf f =
          storeFile fuel (first f.toGeo f.disk r₀) name83 found buf { f with sec := s } := by
  rcases fatWrite_parse fuel path buf f with ⟨hrun, -⟩ | ⟨a, v, par, ha, hv, hpar, hrun⟩
  · exact ⟨f.sec, Or.inl hrun⟩
  · rw [hrun, storeBelow]
    obtain ⟨s, res, hwalk, hyes, hno⟩ := walk_spec ht hfuel par false 0
    rw [hwalk]
    by_cases hex : ∃ r, WalksTo f.toGeo f.disk none par r
    · obtain ⟨r, hw⟩ := hex
      rcases hyes r hw with rfl | ⟨-, rfl⟩
      · dsimp only
        rw [hitOf_isdir, hitOf_clus]
        by_cases hd : isDir f.disk r = true
        · rw [hd, if_neg (by simp)]
          cases hto : to83 v with
          | none => exact ⟨s, Or.inl rfl⟩
          | some name83 =>
            rw [hpar (to83_length hto).1] at hw
            have htar : Target f path r name83 := ⟨⟨a ++ [slash], v, ha, by simp, hv, hw, hto⟩, hd⟩
            obtain ⟨s', h | ⟨found, hso, h⟩⟩ := @storeNamed { f with sec := s } ht fuel hfuel r
              htar.ref hd v name83 hto buf _ rfl
            · exact ⟨s', Or.inl h⟩
            · exact ⟨s', Or.inr ⟨r, name83, found, htar, hso, h⟩⟩
        · rw [if_pos (by simp [Bool.eq_false_iff.mpr hd])]
          exact ⟨s, Or.inl rfl⟩
      · exact ⟨s, Or.inl rfl⟩
    · rw [hno fun r hw => hex ⟨r, hw⟩]
      exact ⟨s, Or.inl rfl⟩

/-- **`fat_write`**: it ends; it fails without a write, or it has a target, and then
at every cut of its writes the disk is old or new. -/
theorem fatWrite_spec {f : Vol} (ht : Tree f.toGeo f.disk) {fuel : Nat}
    (hfuel : f.fatSz * 128 ≤ fuel) (path buf : Str) :
    ∃ ok f' ws, fatWrite fuel path buf f = some (ok, f') ∧
      (ok = false ∧ ws = [] ∧ Kept f f' [] ∨
        ∃ r₀ name83, Target f path r₀ name83 ∧ Stored f f' ws r₀ name83 buf ok) := by
  obtain ⟨s, hrun | ⟨r₀, name83, found, htar, hso, hrun⟩⟩ := fatWrite_cases ht hfuel path buf
  · exact ⟨false, _, [], hrun, Or.inl ⟨rfl, rfl, (Kept.refl f).sec s⟩⟩
  · obtain ⟨-, leaf, -, -, -, -, hto⟩ := htar.path
    obtain ⟨base, ext, hp, hname, h5, -⟩ := to83_spec hto
    obtain ⟨ok, f', ws, hst, h⟩ := @storeFile_spec { f with sec := s } r₀ name83 base ext ht
      htar.ref htar.dir fuel hfuel hp hname h5 buf found hso
    exact ⟨ok, f', ws, hrun.trans hst, Or.inr ⟨r₀, name83, htar, h.ofSec⟩⟩

/-! ## The same path, read again -/

/-- The last component a path has does not end in a dot. -/
def PlainLast (path : Str) : Prop :=
  ∀ q, (comps path).getLast? = some q → q.getLast? ≠ some dot

theorem leaf_render {leaf base ext : Str} (hp : ValidParts base ext)
    (h : leaf.map upper = base ∧ ext = [] ∨ leaf.map upper = base ++ dot :: ext)
    (hdot : leaf.getLast? ≠ some dot) : leaf.map upper = render base ext := by
  unfold render
  rcases h with ⟨hb, hx⟩ | hb
  · rw [if_pos hx, hb]
  · have hx : ext ≠ [] := by
      intro he
      subst he
      have hlast : (leaf.map upper).getLast? = some dot := by
        rw [hb]
        simp
      rw [List.getLast?_map] at hlast
      cases hl : leaf.getLast? with
      | none => simp [hl] at hlast
      | some c =>
        rw [hl, Option.map_some, Option.some.injEq] at hlast
        exact hdot (by rw [hl, upper_eq_dot hlast])
    rw [if_neg hx, hb]

/-- A leaf is the end of the last component. -/
theorem leaf_plain {cwd path par leaf : Str} (ha : abspath cwd path = some (par ++ leaf))
    (hpar : par.getLast? = some slash) (hv : slash ∉ leaf) (hne : leaf ≠ [])
    (hpl : PlainLast path) : leaf.getLast? ≠ some dot := by
  obtain ⟨-, hnil, hlast⟩ := abspath_spec ha
  rw [List.getLast?_append_of_ne_nil _ hne] at hnil hlast
  by_cases hc : comps path = []
  · rcases hnil hc with hlen | hsl
    · have h1 : 0 < leaf.length := List.length_pos_iff.mpr hne
      have h2 : 0 < par.length := List.length_pos_iff.mpr (by rintro rfl; simp at hpar)
      rw [List.length_append] at hlen
      omega
    · exact absurd (List.mem_of_getLast? hsl) hv
  · have hq := List.getLast?_eq_some_getLast hc
    rw [hlast _ hq (hpl _ hq)]
    exact hpl _ hq

theorem comps_leaf {par leaf : Str} (hpar : par.getLast? = some slash) (hv : slash ∉ leaf)
    (hne : leaf ≠ []) : comps (par ++ leaf) = comps par ++ [leaf] := by
  obtain ⟨a, rfl⟩ : ∃ a, par = a ++ [slash] := by
    have hpne : par ≠ [] := by
      intro he
      subst he
      simp at hpar
    rw [List.getLast?_eq_some_getLast hpne, Option.some.injEq] at hpar
    exact ⟨par.dropLast, by rw [← hpar, List.dropLast_append_getLast]⟩
  unfold comps
  rw [List.append_assoc, List.singleton_append, pieces_append_sep, pieces_append_sep,
    pieces_word hv hne, pieces_nil, List.append_nil]

section ReadBack

variable {f f' : Vol} {path : Str} {r₀ : Option Slot} {name83 buf : Str} {sl₀ : Slot}
  (htar : Target f path r₀ name83) (hnew : New f.toGeo f.disk r₀ name83 buf sl₀ f'.disk)
  (hpl : PlainLast path)

include htar hnew hpl

/-- On the new disk the path leads to the new entry. -/
theorem Target.walksTo : ∃ abs, abspath f.cwdPath path = some abs ∧
    WalksTo f.toGeo f'.disk none abs (some sl₀) := by
  obtain ⟨par, leaf, ha, hpar, hv, hw, hto⟩ := htar.path
  obtain ⟨base, ext, hp, hname, -, hin⟩ := to83_spec hto
  have hne : leaf ≠ [] := by
    intro he
    subst he
    simp [to83, take83] at hto
  have hlast := leaf_plain ha hpar hv hne hpl
  have hren := leaf_render hp hin hlast
  -- the new entry is shown under the name typed
  have hnamed : Named f.toGeo f'.disk r₀ (leaf.map upper) sl₀ := by
    obtain ⟨hc, hraw⟩ := hnew.here
    obtain ⟨-, -, -, -, nm, hn⟩ := id hc
    refine ⟨hc, ?_⟩
    rw [hren]
    exact entryName_valid (live_of_entryName hn) hp (hraw.trans hname)
  have hr₀ : ∀ a, r₀ = some a → ¬ a = sl₀ := by
    intro a he he'
    subst he
    subst he'
    have hfile := (hnew.only htar.ref).2
    rw [htar.dir] at hfile
    exact absurd hfile (by simp)
  have hlen : leaf.length ≤ 12 := by
    have hb := hp.base_le
    have hx := hp.ext_le
    have hmap := congrArg List.length hren
    rw [List.length_map, render] at hmap
    split at hmap
    · omega
    · rw [List.length_append, List.length_cons] at hmap
      omega
  refine ⟨_, ha, fun q hq => ?_, ?_, fun _ => ?_⟩
  · rw [comps_leaf hpar hv hne] at hq
    rcases List.mem_append.mp hq with hq | hq
    · exact hw.short q hq
    · rw [List.mem_singleton.mp hq]
      exact hlen
  · rw [comps_leaf hpar hv hne]
    exact (hnew.view.steps hnew.noDirs Ref.root (by simp) hr₀ hw.steps).append
      ⟨sl₀, hnamed, rfl⟩
  · rw [List.getLast?_append_of_ne_nil _ hne]
    exact fun h => hv (List.mem_of_getLast? h)

/-- **What was written is read**, as far as there is room. -/
theorem Target.fatRead (hg : f'.toGeo = f.toGeo)
    (hc : abspath f'.cwdPath path = abspath f.cwdPath path) {fuel : Nat}
    (hfuel : f.fatSz * 128 ≤ fuel) (hlen : buf.length < 2 ^ 32) (cap : Nat) :
    ∃ f'', fatRead fuel path cap f' = some ((some (min buf.length cap), buf.take cap), f'') := by
  obtain ⟨abs, ha, hw⟩ := htar.walksTo hnew hpl
  obtain ⟨ncs, hch, hh⟩ := hnew.data
  have ht' := hnew.tree
  have hsize : entSize (ent f'.disk sl₀) = buf.length := by
    rw [hnew.size, Nat.mod_eq_of_lt hlen]
  have hres : fileRead f.toGeo f'.disk cap sl₀ ncs = (some (min buf.length cap), buf.take cap) := by
    have hread : readSecs f'.disk (min buf.length cap) (secsOf f.toGeo ncs) []
        = (true, [] ++ buf.take (min buf.length cap - 0)) := readSecs_holds hh (by simp)
    rw [fileRead, hsize, hread]
    simp only [List.nil_append, Nat.sub_zero, List.length_take]
    rw [List.take_eq_take_min (l := buf) (i := cap), Nat.min_comm cap]
    simp
  have hfuel' : f'.fatSz * 128 ≤ fuel := by rw [hg]; exact hfuel
  rw [← hg] at ht' hw hch hres
  obtain ⟨s, hs⟩ := fatRead_file ht' hfuel' cap (by rw [hc]; exact ha) hw hnew.file hch
  rw [hres] at hs
  exact ⟨_, hs⟩

end ReadBack

end InaneOS.Fat
