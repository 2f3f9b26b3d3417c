import InaneOS.Fat.Rollback

/-!
# Drives that fail

The volume on a drive some of whose data sectors fail is well-formed in what it says:
`heal` is the same contents on a drive that never fails, and the tree is that of the
healed disk. Chains, entries and slots only look at the contents, so they are the same
on both.

What the reading functions find on a failing drive is right, they only find less:
`walk` comes to a directory that the path leads to (`walk_sound`). `Entered` is the
point at which `fat_write` has resolved its path, and `fatWrite_front` says that it gets
there or fails without a trace.
-/

namespace InaneOS.Fat

open InaneOS.Lib

/-- A drive that never fails. -/
def Drive.sound : Drive := ⟨fun _ => true, fun _ => true⟩

/-- The same contents on a drive that never fails. -/
def Disk.heal (d : Disk) : Disk := { d with drive := Drive.sound }

section Heal

variable {g : Geo} {d d' : Disk}

theorem SameOff.heal {A B : Nat → Prop} (h : SameOff g A B d d') : SameOff g A B d.heal d'.heal :=
  ⟨rfl, h.data⟩

/-- Nothing fails on a healed disk. -/
theorem heal_works (l : Nat) : d.heal.drive.Works l := ⟨rfl, rfl⟩

theorem ref_heal {r : Option Slot} : Ref g d.heal r ↔ Ref g d r := by
  constructor
  · intro h
    induction h with
    | root => exact Ref.root
    | entry _ hc ih => exact Ref.entry ih hc
  · intro h
    induction h with
    | root => exact Ref.root
    | entry _ hc ih => exact Ref.entry ih hc

/-- A well-formed volume is one whatever the drive. -/
theorem WellFormed.heal (h : WellFormed g d) : WellFormed g d.heal where
  tree :=
    { geo := h.tree.geo
      fatsOn := fun l _ _ => heal_works l
      readable := fun _ _ => rfl
      dirIn := fun r hr => h.tree.dirIn r (ref_heal.mp hr)
      fileIn := fun sl hr => h.tree.fileIn sl (ref_heal.mp hr)
      chain := fun r hr => h.tree.chain r (ref_heal.mp hr)
      onDisk := fun _ _ _ _ _ l _ => heal_works l
      clean := fun r cs hr => h.tree.clean r cs (ref_heal.mp hr)
      valid := fun sl hr => h.tree.valid sl (ref_heal.mp hr)
      uniq := fun r a b hr => h.tree.uniq r a b (ref_heal.mp hr)
      disj := fun r r' cs cs' hr hr' => h.tree.disj r r' cs cs' (ref_heal.mp hr) (ref_heal.mp hr') }
  copies := h.copies
  fits sl cs hr := h.fits sl cs (ref_heal.mp hr)

end Heal

/-! ## `walk` and `lookup` -/

section Walk

variable {f : Vol} (ht : Tree f.toGeo f.disk.heal) (ho : FatsOn f.toGeo f.disk) {fuel : Nat}
  (hfuel : f.fatSz * 128 ≤ fuel)

include ht ho hfuel

/-- Scanning a directory on a drive that may fail. -/
theorem scan_failing {α σ : Type} (fail : α) (body : σ → Nat → Nat → Sector → Except α σ) {c : Nat}
    {cs : List Nat} (hcs : ClusChain f.toGeo f.disk c cs) (prev : Nat) (a : σ) :
    (∃ s, scanDir fail body fuel c prev a f = some (.error fail, { f with sec := s }) ∧
      ∃ l ∈ secsOf f.toGeo cs, f.disk.drive.reads l = false) ∨
    ∃ res f', scanDir fail body fuel c prev a f = some (scanEnd prev cs res, f') ∧
      Scanned body f (slots f.toGeo cs) a res f' ∧
      ∀ b, res = .ok b → ∀ l ∈ secsOf f.toGeo cs, f.disk.drive.reads l = true :=
  scanDir_cases fail body cs fuel c prev a f ht.geo ho hcs
    (Nat.lt_of_lt_of_le (hcs.length_lt ht.geo) hfuel)

/-- What the component loop comes to is where the path leads. -/
theorem walkLoop_sound : ∀ (k : Nat) (path : Str) (r : Option Slot) (h : Hit) (s₀ : Sector),
    path.length ≤ k →
    Ref f.toGeo f.disk.heal r → (isDir f.disk r = true ∨ path = []) →
      h.clus = first f.toGeo f.disk r →
    ∃ s res, walkLoop fuel k path h { f with sec := s₀ } = some (res, { f with sec := s }) ∧
      ∀ h', res = some h' → ∃ r', WalksTo f.toGeo f.disk.heal r path r' ∧
        h' = if comps path = [] then h else hitOf f.toGeo f.disk h.size r'
  | 0, path, r, h, s₀, hk, hr, hd, hh => by
    have hp : path = [] := List.length_eq_zero_iff.mp (by omega)
    subst hp
    exact ⟨s₀, some h, rfl, fun h' he => ⟨r, WalksTo.stay rfl hd, (Option.some.inj he).symm⟩⟩
  | k + 1, path, r, h, s₀, hk, hr, hd, hh => by
    rcases skipSlash_cases path with ⟨hnil, hcs⟩ | ⟨v, rest, hround⟩
    · refine ⟨s₀, some h, walkLoop_end hnil .., fun h' he => ⟨r, WalksTo.stay hcs hd, ?_⟩⟩
      rw [if_pos hcs]
      exact (Option.some.inj he).symm
    · have hd : isDir f.disk r = true := hd.resolve_right hround.path_ne
      have hcs : comps path ≠ [] := by
        rw [hround.comps_eq]
        exact List.cons_ne_nil _ _
      rcases Nat.lt_or_ge 12 v.length with hlong | hshort
      · exact ⟨s₀, none, hround.walk_long hlong .., fun h' he => absurd he (by simp)⟩
      · obtain ⟨cs, hch⟩ := ht.dirChain hr hd
        obtain ⟨hyes, hno⟩ := walkFold_spec ht hr hd hch v rest h.size (hround.short hshort).2
        rw [hround.walk hshort, hh, show first f.toGeo f.disk r =
          first f.toGeo f.disk.heal r from rfl]
        rcases scan_failing (f := { f with sec := s₀ }) ht ho hfuel none (walkBody v rest h.size)
          hch 0 () with
          ⟨s, hrun, -⟩ | ⟨res, f', hrun, ⟨hfold, ⟨s, rfl⟩, -⟩, -⟩
        · rw [hrun]
          exact ⟨s, none, rfl, fun h' he => absurd he (by simp)⟩
        · rw [hrun]
          by_cases hex : ∃ sl, Named f.toGeo f.disk.heal r (v.map upper) sl
          · obtain ⟨sl, hsl⟩ := hex
            obtain rfl : res = .error (some (hitOf f.toGeo f.disk.heal h.size (some sl))) :=
              hfold.symm.trans (hyes sl hsl)
            by_cases hfile : isDir f.disk.heal (some sl) = true ∨ rest = []
            · obtain ⟨s₂, res₂, hrun₂, hsound⟩ := walkLoop_sound k rest (some sl)
                (hitOf f.toGeo f.disk.heal h.size (some sl)) s (hround.rest_le hk)
                  (Ref.entry hr hsl.1)
                hfile rfl
              refine ⟨s₂, res₂, ?_, fun h' he => ?_⟩
              · rw [← hrun₂]
                exact if_neg fun hoff => hit_goes.mp hoff hfile
              · obtain ⟨r', hw, heq⟩ := hsound h' he
                refine ⟨r', (walksTo_named ht hr hround hshort hsl).mpr ⟨hw, hfile⟩, ?_⟩
                rw [if_neg hcs, heq]
                exact hit_behind hw hfile h.size
            · exact ⟨s, none, if_pos (hit_goes.mpr hfile), fun h' he => absurd he (by simp)⟩
          · refine ⟨s, none, ?_, fun h' he => absurd he (by simp)⟩
            rcases hno fun sl hsl => hex ⟨sl, hsl⟩ with hok | hnone
            · obtain rfl : res = .ok () := hfold.symm.trans hok
              rfl
            · obtain rfl : res = .error none := hfold.symm.trans hnone
              rfl

/-- **`walk` comes to a directory** only where the path leads to it. -/
theorem walk_sound (abs : Str) (isdir : Bool) (size : Nat) :
    ∃ s res, walk fuel abs isdir size f = some (res, { f with sec := s }) ∧
      ∀ h, res = some h → h.isdir = true → ∃ r, Ref f.toGeo f.disk.heal r ∧ isDir f.disk r = true ∧
        h.clus = first f.toGeo f.disk r := by
  unfold walk
  split
  · refine ⟨f.sec, _, rfl, fun h he _ => ⟨none, Ref.root, rfl, ?_⟩⟩
    rw [← Option.some.inj he]
    rfl
  · obtain ⟨s, res, hrun, hsound⟩ :=
      walkLoop_sound ht ho hfuel abs.length abs none ⟨f.rootClus, isdir, size⟩ f.sec
      (Nat.le_refl _) Ref.root (Or.inl rfl) rfl
    refine ⟨s, res, hrun, fun h he hdir => ?_⟩
    obtain ⟨r, hw, rfl⟩ := hsound h he
    have href : Ref f.toGeo f.disk.heal r := hw.steps.ref Ref.root
    by_cases hcs : comps abs = []
    · have hst := hw.steps
      rw [hcs] at hst
      subst hst
      exact ⟨none, Ref.root, rfl, by rw [if_pos hcs]; rfl⟩
    · rw [if_neg hcs, hitOf_isdir] at hdir
      exact ⟨r, href, hdir, by rw [if_neg hcs, hitOf_clus]⟩

/-- **What `lookup` finds is there**, and it overlooks nothing in a directory that can be read. -/
theorem lookup_sound {r : Option Slot} (hr : Ref f.toGeo f.disk.heal r) (hd : isDir f.disk r = true)
    {cs : List Nat} (hcs : ClusChain f.toGeo f.disk (first f.toGeo f.disk r) cs) {leaf name83 : Str}
    (hto : to83 leaf = some name83) :
    ∃ s res, lookup fuel (first f.toGeo f.disk r) name83 f = some (res, { f with sec := s }) ∧
      (∀ fd, res = some fd → ∃ sl, Holding f.toGeo f.disk.heal r name83 sl ∧ fd = ⟨sl.1, sl.2,
        entIsDir (ent f.disk sl), entClus (ent f.disk sl), entSize (ent f.disk sl)⟩) ∧
      ((∀ l ∈ secsOf f.toGeo cs, f.disk.drive.reads l = true) →
        ∀ sl, Holding f.toGeo f.disk.heal r name83 sl → res ≠ none) := by
  obtain ⟨base, ext, hp, hname, -, -⟩ := to83_spec hto
  obtain ⟨hyes, hno⟩ := lookupFold_spec ht hr hd hcs hp hname
  unfold lookup
  rcases scan_failing ht ho hfuel none (lookupBody name83) hcs 0 () with
    ⟨s, hrun, l, hl, hrd⟩ | ⟨res, f', hrun, ⟨hfold, ⟨s, rfl⟩, -⟩, -⟩
  · rw [hrun]
    refine ⟨s, none, rfl, fun fd h => by simp at h, fun hreads => ?_⟩
    exact absurd (hrd.symm.trans (hreads l hl)) (by simp)
  · rw [hrun]
    by_cases hex : ∃ sl, Holding f.toGeo f.disk.heal r name83 sl
    · obtain ⟨sl, hsl⟩ := hex
      obtain rfl := hfold.symm.trans (hyes sl hsl)
      exact ⟨s, _, rfl, fun fd h => ⟨sl, hsl, (Option.some.inj h).symm⟩, fun _ _ _ => by simp⟩
    · have hnone : ∀ sl, ¬ Holding f.toGeo f.disk.heal r name83 sl := fun sl hsl => hex ⟨sl, hsl⟩
      refine ⟨s, none, ?_, fun fd h => by simp at h, fun _ sl hsl => absurd hsl (hnone sl)⟩
      rcases hno hnone with h | h
      · obtain rfl : res = .ok () := hfold.symm.trans h
        rfl
      · obtain rfl : res = .error none := hfold.symm.trans h
        rfl

end Walk

/-! ## The path of `fat_write` -/

/-- `fat_write` resolves `path`: `walk` comes to the directory at `clus`, and the last component is
the name `name83`. -/
def Entered (fuel : Nat) (f : Vol) (path : Str) (clus : Nat) (name83 : Str) : Prop :=
  ∃ par leaf h f₁, abspath f.cwdPath path = some (par ++ leaf) ∧ par.getLast? = some slash ∧
    slash ∉ leaf ∧
    to83 leaf = some name83 ∧ walk fuel par false 0 f = some (some h, f₁) ∧ h.isdir = true ∧
      h.clus = clus

/-- `fat_write` fails without a write, or it comes to a directory of the tree. -/
theorem fatWrite_front {f : Vol} (ht : Tree f.toGeo f.disk.heal) (ho : FatsOn f.toGeo f.disk)
    {fuel : Nat}
    (hfuel : f.fatSz * 128 ≤ fuel) (path buf : Str) :
    (∃ s, fatWrite fuel path buf f = some (false, { f with sec := s })) ∧
      (∀ clus name83, ¬ Entered fuel f path clus name83) ∨
    ∃ r₀ leaf name83 s, to83 leaf = some name83 ∧ Ref f.toGeo f.disk.heal r₀ ∧
      isDir f.disk r₀ = true ∧
      (∀ c n, Entered fuel f path c n ↔ c = first f.toGeo f.disk r₀ ∧ n = name83) ∧
      fatWrite fuel path buf f = storeAt fuel (first f.toGeo f.disk r₀) name83 buf
        { f with sec := s } := by
  rcases fatWrite_parse fuel path buf f with ⟨hrun, hno⟩ | ⟨a, v, par, ha, hv, hpar, hrun⟩
  · refine Or.inl ⟨⟨f.sec, hrun⟩, fun clus name83 => ?_⟩
    intro hx
    obtain ⟨par, leaf, -, -, h, hlast, hleaf, hto, -⟩ := hx
    exact hno par leaf name83 h hlast hleaf hto
  · -- whatever is entered, it is by this parent and this leaf
    have hsame : ∀ {c n}, Entered fuel f path c n → to83 v = some n ∧
        ∃ h f₁, walk fuel par false 0 f = some (some h, f₁) ∧ h.isdir = true ∧ h.clus = c := by
      intro c n hx
      obtain ⟨par', leaf, h, f₁, hab, hlast, hleaf, hto, hwalk, hdir, hclus⟩ := hx
      obtain ⟨b, rfl⟩ := List.getLast?_eq_some_iff.mp hlast
      rw [ha, Option.some.injEq, List.append_assoc, List.append_assoc, List.singleton_append,
        List.singleton_append] at hab
      obtain ⟨rfl, rfl⟩ := last_unique hab hv hleaf
      rw [hpar (to83_length hto).1]
      exact ⟨hto, h, f₁, hwalk, hdir, hclus⟩
    rw [hrun, storeBelow]
    obtain ⟨s, res, hwalk, hsound⟩ := walk_sound ht ho hfuel par false 0
    rw [hwalk]
    have hfail : ∀ (hres : ∀ h, res = some h → h.isdir = true → to83 v = none),
        ∀ clus name83, ¬ Entered fuel f path clus name83 := by
      intro hres clus name83 hent
      obtain ⟨hto, h, f₁, hw, hdir, -⟩ := hsame hent
      rw [hwalk, Option.some.injEq, Prod.mk.injEq] at hw
      exact absurd ((hres h hw.1 hdir).symm.trans hto) (by simp)
    cases res with
    | none => exact Or.inl ⟨⟨s, rfl⟩, hfail fun h he => by simp at he⟩
    | some h =>
      dsimp only
      by_cases hdir : h.isdir = true
      · rw [hdir, if_neg (by simp)]
        cases hto : to83 v with
        | none => exact Or.inl ⟨⟨s, rfl⟩, hfail fun _ _ _ => hto⟩
        | some name83 =>
          obtain ⟨r, href, hd, hclus⟩ := hsound h rfl hdir
          refine Or.inr ⟨r, v, name83, s, hto, href, hd,
            fun c n => ⟨fun hent => ?_, ?_⟩, by rw [hclus]⟩
          · obtain ⟨hto', h', f₁, hw, -, hc⟩ := hsame hent
            rw [hwalk, Option.some.injEq, Prod.mk.injEq, Option.some.injEq] at hw
            rw [hto, Option.some.injEq] at hto'
            exact ⟨by rw [← hc, ← hw.1, hclus], hto'.symm⟩
          · intro h
            obtain ⟨rfl, rfl⟩ := h
            have hpar' := hpar (to83_length hto).1
            subst hpar'
            exact ⟨a ++ [slash], v, h, _, ha, by simp, hv, hto, hwalk, hdir, hclus⟩
      · rw [if_pos (by simp [Bool.eq_false_iff.mpr hdir])]
        exact Or.inl ⟨⟨s, rfl⟩, hfail fun h' he hd => absurd (Option.some.inj he ▸ hd) hdir⟩

end InaneOS.Fat
