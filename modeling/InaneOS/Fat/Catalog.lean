import InaneOS.Fat.Cwd
import InaneOS.Fat.Spelling

/-!
# The volume as a catalog

What a volume is for: under a list of names there is a directory, or a file, or nothing.
`catalog` reads that off a disk, and forgets clusters, slots and table entries. A file is
what reading it gives for every size of the buffer, since some sector of it may be
unreadable.

The catalog of a sound tree is `Shows` as a function (`catalog_iff`), because a name leads
to one entry and an entry has one list of names (`Steps.names`). For a reader the disk
after a `fat_write` is the old one or the new one, and that is all there is to say about
the catalog: it is the same (`Old.catalog`), or it has one file more, or another one under
a name that was a file's (`New.catalog`).
-/

namespace InaneOS.Fat

open InaneOS.Lib

inductive Kind
  | directory
  | file (read : Nat → Option Nat × Str)

/-- What there is under each list of names. -/
abbrev Catalog := List Str → Option Kind

/-- What reading a file that holds `buf` gives. -/
def holding (buf : Str) : Kind := .file fun cap => (some (min buf.length cap), buf.take cap)

/-- Names in the spelling in which they are stored. -/
def capitals (p : List Str) : List Str := p.map (List.map upper)

section

variable {g : Geo} {d d' : Disk}

/-- What stands at a reference. -/
inductive Is (g : Geo) (d : Disk) : Option Slot → Kind → Prop
  | directory {r : Option Slot} : isDir d r = true → Is g d r .directory
  | file {sl : Slot} {cs : List Nat} : isDir d (some sl) = false → FileChain g d sl cs →
      Is g d (some sl) (.file fun cap => fileRead g d cap sl cs)

/-- The names lead there. -/
def Shows (g : Geo) (d : Disk) (p : List Str) (k : Kind) : Prop :=
  ∃ r, Steps g d none p r ∧ Is g d r k

theorem Is.unique {r : Option Slot} {k k' : Kind} (h : Is g d r k) (h' : Is g d r k') : k = k' := by
  cases h with
  | directory hd =>
    cases h' with
    | directory _ => rfl
    | file hd' _ => exact absurd (hd.symm.trans hd') (by simp)
  | file hd hcs =>
    cases h' with
    | directory hd' => exact absurd (hd.symm.trans hd') (by simp)
    | file _ hcs' => rw [hcs.unique hcs']

theorem Shows.unique (ht : Tree g d) {p : List Str} {k k' : Kind} (h : Shows g d p k)
    (h' : Shows g d p k') : k = k' := by
  obtain ⟨r, hr, hk⟩ := h
  obtain ⟨r', hr', hk'⟩ := h'
  rw [Steps.unique ht Ref.root hr' hr] at hk'
  exact hk.unique hk'

open Classical in
/-- Something for which `P` holds, if there is such a thing. -/
noncomputable def anyOf {α : Type} (P : α → Prop) : Option α :=
  if h : ∃ a, P a then some h.choose else none

/-- What the disk has under each list of names. -/
noncomputable def catalog (g : Geo) (d : Disk) : Catalog := fun p => anyOf (Shows g d p)

theorem catalog_iff (ht : Tree g d) {p : List Str} {k : Kind} :
    catalog g d p = some k ↔ Shows g d p k := by
  unfold catalog anyOf
  split
  · next h =>
    refine ⟨fun he => Option.some.inj he ▸ h.choose_spec, fun hk => ?_⟩
    rw [h.choose_spec.unique ht hk]
  · next h => exact ⟨fun he => absurd he (by simp), fun hk => absurd ⟨k, hk⟩ h⟩

theorem catalog_none (ht : Tree g d) {p : List Str} (h : ∀ r, ¬ Steps g d none p r) :
    catalog g d p = none := by
  cases hc : catalog g d p with
  | none => rfl
  | some k =>
    obtain ⟨r, hr, -⟩ := (catalog_iff ht).mp hc
    exact absurd hr (h r)

/-- A reference is a directory or a file. -/
theorem Tree.is (ht : Tree g d) {r : Option Slot} (hr : Ref g d r) : ∃ k, Is g d r k := by
  cases hd : isDir d r with
  | true => exact ⟨_, .directory hd⟩
  | false =>
    cases r with
    | none => exact absurd hd (by simp [isDir])
    | some sl =>
      obtain ⟨cs, hcs⟩ := ht.fileChain hr hd
      exact ⟨_, .file hd hcs⟩

/-! ## Names -/

theorem Steps.capitals : ∀ {p : List Str} {r r' : Option Slot},
    Steps g d r (capitals p) r' ↔ Steps g d r p r'
  | [], _, _ => Iff.rfl
  | q :: p, r, r' => by
    have hq : (q.map upper).map upper = q.map upper := by
      rw [List.map_map]
      exact List.map_congr_left fun c _ => upper_upper c
    show (∃ sl, Named g d r ((q.map upper).map upper) sl ∧
      Steps g d (some sl) (Fat.capitals p) r') ↔ _
    simp only [hq, Steps.capitals]
    rfl

theorem Shows.capitals {p : List Str} {k : Kind} : Shows g d (capitals p) k ↔ Shows g d p k :=
  exists_congr fun _ => and_congr_left fun _ => Steps.capitals

theorem catalog_capitals (g : Geo) (d : Disk) (p : List Str) :
    catalog g d (capitals p) = catalog g d p :=
  congrArg anyOf (funext fun _ => propext Shows.capitals)

theorem Steps.concat {p : List Str} {c : Str} {r r' : Option Slot} :
    Steps g d r (p ++ [c]) r' ↔
      ∃ a sl, Steps g d r p a ∧ Named g d a (c.map upper) sl ∧ r' = some sl := by
  constructor
  · intro h
    obtain ⟨a, ha, sl, hsl, hr⟩ := h.split
    exact ⟨a, sl, ha, hsl, Eq.symm hr⟩
  · rintro ⟨a, sl, ha, hsl, rfl⟩
    exact ha.append ⟨sl, hsl, rfl⟩

/-- An entry stands in one directory. -/
theorem Child.parent (ht : Tree g d) {r r' : Option Slot} {sl : Slot} (hr : Ref g d r)
    (hr' : Ref g d r') (h : Child g d r sl) (h' : Child g d r' sl) : r = r' := by
  by_contra hne
  obtain ⟨-, cs, hcs, hsl, -⟩ := h
  obtain ⟨-, cs', hcs', hsl', -⟩ := h'
  obtain ⟨x, hx, hpos⟩ := mem_secsOf.mp (mem_slots.mp hsl).1
  obtain ⟨x', hx', hpos'⟩ := mem_secsOf.mp (mem_slots.mp hsl').1
  have hxx := posData_inj ht.geo (hcs.2 x hx) (hcs'.2 x' hx') hpos hpos'
  exact ht.disj r r' cs cs' hr hr' hne hcs hcs' hx (hxx ▸ hx')

/-- **An entry has one list of names.** -/
theorem Steps.names (ht : Tree g d) : ∀ {p q : List Str} {r : Option Slot},
    Steps g d none p r → Steps g d none q r → Fat.capitals p = Fat.capitals q := by
  intro p
  induction p using List.reverseRecOn with
  | nil =>
    intro q r hp hq
    obtain rfl : none = r := hp
    rcases q.eq_nil_or_concat' with rfl | ⟨q', c, rfl⟩
    · rfl
    · obtain ⟨_, _, -, -, hsl⟩ := Steps.concat.mp hq
      exact absurd hsl (by simp)
  | append_singleton p c ih =>
    intro q r hp hq
    obtain ⟨a, sl, ha, hsl, rfl⟩ := Steps.concat.mp hp
    rcases q.eq_nil_or_concat' with rfl | ⟨q', c', rfl⟩
    · exact absurd (show none = some sl from hq) (by simp)
    · obtain ⟨a', sl', ha', hsl', he⟩ := Steps.concat.mp hq
      obtain rfl := Option.some.inj he
      have hpar := Child.parent ht (ha.ref Ref.root) (ha'.ref Ref.root) hsl.1 hsl'.1
      subst hpar
      have hname : c.map upper = c'.map upper := Option.some.inj (hsl.2.symm.trans hsl'.2)
      rw [Fat.capitals, Fat.capitals, List.map_append, List.map_append,
        show p.map (List.map upper) = q'.map (List.map upper) from ih ha ha',
        List.map_singleton, List.map_singleton, hname]

/-! ## The old disk -/

/-- What stands at a reference that the view does not except. -/
theorem View.is {X : Slot → Prop} (hv : View g d d' X) {r : Option Slot} (hr : Ref g d r)
    (hx : ∀ a, r = some a → ¬ X a) {k : Kind} (h : Is g d r k) : Is g d' r k := by
  cases h with
  | directory hd => exact .directory ((hv.isDir' hr hx).trans hd)
  | @file sl cs hd hcs =>
    obtain ⟨hcs', hread⟩ := hv.fileChain hr (hx sl rfl) hd hcs
    have hsame : (fun cap => fileRead g d cap sl cs) = fun cap => fileRead g d' cap sl cs :=
      funext fun cap => (hread cap).symm
    rw [hsame]
    exact .file ((hv.isDir hr (hx sl rfl)).trans hd) hcs'

/-- **Nothing happened** to the catalog. -/
theorem Old.catalog (h : Old g d d') (ht : Tree g d) : catalog g d' = catalog g d := by
  have hempty := noDirs_empty g d
  funext p
  cases hc : Fat.catalog g d p with
  | some k =>
    obtain ⟨r, hr, hk⟩ := (catalog_iff ht).mp hc
    exact (catalog_iff h.tree).mpr ⟨r, h.view.steps hempty Ref.root (by simp) (by simp) hr,
      h.view.is (hr.ref Ref.root) (by simp) hk⟩
  | none =>
    refine catalog_none h.tree fun r hr => ?_
    have hr₀ := h.view.steps_inv Ref.root hr
    obtain ⟨k, hk⟩ := ht.is (hr₀.ref Ref.root)
    rw [(catalog_iff ht).mpr ⟨r, hr₀, hk⟩] at hc
    exact absurd hc (by simp)

/-! ## The new disk -/

/-- On the new disk too, a path to another reference goes through what was there. -/
theorem View.steps_back {sl₀ : Slot} (hv : View g d d' (· = sl₀))
    (hfile : Fat.isDir d' (some sl₀) = false) :
    ∀ {ps : List Str} {r r' : Option Slot}, Ref g d r → r ≠ some sl₀ → r' ≠ some sl₀ →
      Steps g d' r ps r' → Steps g d r ps r'
  | [], _, _, _, _, _, h => h
  | _ :: ps, r, r', hr, hr0, hr', h => by
    obtain ⟨a, hn, h⟩ := h
    have ha : a ≠ sl₀ := by
      rintro rfl
      cases ps with
      | nil => exact hr' (Eq.symm h)
      | cons q qs =>
        -- something lies below the slot, but there is a file
        obtain ⟨b, hb, -⟩ := h
        exact absurd (hb.1.1.symm.trans hfile) (by simp)
    have hrx : ∀ sl, r = some sl → ¬ sl = sl₀ := fun sl he he' => hr0 (he'.symm ▸ he)
    have hc := (hv.child r hr hrx a ha).mp hn.1
    have hra : Ref g d (some a) := Ref.entry hr hc
    refine ⟨a, ⟨hc, ?_⟩, View.steps_back hv hfile hra (fun he => ha (Option.some.inj he)) hr' h⟩
    rw [← (hv.ent a hra ha).entryName]
    exact hn.2

/-- The name an entry is shown under, which `to83` stores for `leaf`: without a dot at its end. -/
def shownName (leaf : Str) : Str :=
  if leaf.getLast? = some dot then (leaf.map upper).dropLast else leaf.map upper

theorem shownName_render {leaf base ext : Str} (hp : ValidParts base ext)
    (h : leaf.map upper = base ∧ ext = [] ∨ leaf.map upper = base ++ dot :: ext) :
    shownName leaf = render base ext := by
  unfold shownName
  by_cases hdot : leaf.getLast? = some dot
  · rw [if_pos hdot]
    have hlast : (leaf.map upper).getLast? = some dot := by
      rw [List.getLast?_map, hdot]
      rfl
    have hno : ∀ {w : Str}, (∀ c ∈ w, validChar c = true) → w.getLast? ≠ some dot := by
      intro w hw hl
      have hv := hw dot (List.mem_of_getLast? hl)
      exact absurd hv (by decide)
    rcases h with ⟨hb, -⟩ | hb
    · rw [hb] at hlast
      exact absurd hlast (hno hp.base_ok)
    · rw [hb] at hlast ⊢
      cases ext with
      | nil => exact List.dropLast_concat
      | cons c cs =>
        rw [List.getLast?_append_of_ne_nil _ (by simp), List.getLast?_cons_cons] at hlast
        exact absurd hlast (hno hp.ext_ok)
  · rw [if_neg hdot]
    exact leaf_render hp h hdot

theorem render_upper {base ext : Str} (hp : ValidParts base ext) :
    (render base ext).map upper = render base ext := by
  have hup : ∀ {c : UInt8}, validChar c = true → upper c = c := by
    intro c hc
    obtain ⟨-, -, -, hlow⟩ := validChar_iff.mp hc
    unfold upper
    refine if_neg fun h => ?_
    rw [UInt8.le_iff_toNat_le, UInt8.le_iff_toNat_le] at h
    simp at h
    omega
  have hmap : ∀ {w : Str}, (∀ c ∈ w, validChar c = true) → w.map upper = w := by
    intro w hw
    conv_rhs => rw [← List.map_id w]
    exact List.map_congr_left fun c hc => hup (hw c hc)
  unfold render
  split
  · exact hmap hp.base_ok
  · rw [List.map_append, List.map_cons, hmap hp.base_ok, hmap hp.ext_ok]
    rfl

/-- The catalog with a file under one name. -/
def Catalog.put (k : Catalog) (p : List Str) (it : Kind) : Catalog := fun q =>
  if capitals q = capitals p then some it else k q

theorem Holding.named {r : Option Slot} {leaf name83 : Str} {sl : Slot}
    (h : Holding g d r name83 sl) (hto : to83 leaf = some name83) :
    Named g d r ((shownName leaf).map upper) sl := by
  obtain ⟨base, ext, hp, hname, -, hin⟩ := to83_spec hto
  obtain ⟨hc, hraw⟩ := h
  obtain ⟨-, -, -, -, nm, hn⟩ := id hc
  refine ⟨hc, ?_⟩
  rw [shownName_render hp hin, render_upper hp]
  exact entryName_valid (live_of_entryName hn) hp (hraw.trans hname)

section New

variable {r₀ : Option Slot} {leaf name83 buf : Str} {sl₀ : Slot}
  (h : New g d r₀ name83 buf sl₀ d')

include h

/-- The new file, read. -/
theorem New.is (hlen : buf.length < 2 ^ 32) : Is g d' (some sl₀) (holding buf) := by
  obtain ⟨ncs, hch, hh⟩ := h.data
  have hsize : entSize (ent d' sl₀) = buf.length := by rw [h.size, Nat.mod_eq_of_lt hlen]
  have hres : (fun cap => fileRead g d' cap sl₀ ncs) =
      fun cap => (some (min buf.length cap), buf.take cap) := by
    funext cap
    have hread : readSecs d' (min buf.length cap) (secsOf g ncs) [] =
        (true, [] ++ buf.take (min buf.length cap - 0)) := readSecs_holds hh (by simp)
    rw [fileRead, hsize, hread]
    simp only [List.nil_append, Nat.sub_zero, List.length_take]
    rw [List.take_eq_take_min (l := buf) (i := cap), Nat.min_comm cap]
    simp
  rw [holding, ← hres]
  exact .file h.file hch

variable (ht : Tree g d) {p : List Str} (hp : Steps g d none p r₀) (hd : isDir d r₀ = true)
  (hto : to83 leaf = some name83)

include ht hp hd hto

omit ht in
/-- The names of the new file lead to it. -/
theorem New.steps : Steps g d' none (p ++ [shownName leaf]) (some sl₀) := by
  have hr₀ : ∀ a, r₀ = some a → ¬ a = sl₀ := by
    rintro a rfl rfl
    exact absurd (hd.symm.trans (h.only (hp.ref Ref.root)).2) (by simp)
  exact (h.view.steps h.noDirs Ref.root (by simp) hr₀ hp).append ⟨sl₀, h.here.named hto, rfl⟩

/-- The name was not a directory's. -/
theorem New.not_dir : catalog g d (p ++ [shownName leaf]) ≠ some .directory := by
  intro hc
  obtain ⟨r, hr, hk⟩ := (catalog_iff ht).mp hc
  obtain ⟨a, sl, ha, hsl, rfl⟩ := Steps.concat.mp hr
  rw [Steps.unique ht Ref.root ha hp] at hsl
  cases hk with
  | directory hdir =>
    have hsl0 : sl ≠ sl₀ := by
      rintro rfl
      exact absurd (hdir.symm.trans (h.only (hr.ref Ref.root)).2) (by simp)
    -- both would stand under one name in the new directory
    have hr₀ : ∀ b, r₀ = some b → ¬ b = sl₀ := by
      rintro b rfl rfl
      exact absurd (hd.symm.trans (h.only (hp.ref Ref.root)).2) (by simp)
    have hnew := h.view.named (hp.ref Ref.root) hr₀ hsl0 hsl
    exact hsl0 (Named.unique h.tree h.ref hnew (h.here.named hto))

/-- **A file was put** into the catalog. -/
theorem New.catalog (hlen : buf.length < 2 ^ 32) :
    catalog g d' = (catalog g d).put (p ++ [shownName leaf]) (holding buf) := by
  have hnew := h.steps hp hd hto
  funext q
  unfold Catalog.put
  by_cases hq : capitals q = capitals (p ++ [shownName leaf])
  · rw [if_pos hq, ← catalog_capitals, hq, catalog_capitals]
    exact (catalog_iff h.tree).mpr ⟨some sl₀, hnew, h.is hlen⟩
  · rw [if_neg hq]
    cases hc : Fat.catalog g d q with
    | some k =>
      obtain ⟨r, hr, hk⟩ := (catalog_iff ht).mp hc
      have hrx : ∀ a, r = some a → ¬ a = sl₀ := by
        rintro a rfl rfl
        have hold := (h.only (hr.ref Ref.root)).1
        exact hq (Steps.names ht hr (hp.append ⟨a, hold.named hto, rfl⟩))
      exact (catalog_iff h.tree).mpr ⟨r, h.view.steps h.noDirs Ref.root (by simp) hrx hr,
        h.view.is (hr.ref Ref.root) hrx hk⟩
    | none =>
      refine catalog_none h.tree fun r hr => ?_
      have hr' : r ≠ some sl₀ := by
        rintro rfl
        exact hq (Steps.names h.tree hr hnew)
      have hback := h.view.steps_back h.file Ref.root (by simp) hr' hr
      obtain ⟨k, hk⟩ := ht.is (hback.ref Ref.root)
      rw [(catalog_iff ht).mpr ⟨r, hback, hk⟩] at hc
      exact absurd hc (by simp)

end New

end

end InaneOS.Fat
