import InaneOS.Fat.Table
import Mathlib.Data.List.Pairwise

/-!
# The directory tree on the disk

What a volume means. A directory is the slots of its chain, 32 bytes each
(`slots`); a slot is *shown* when `entry_name` gives it a name. A reference is
the root or a shown slot of a directory that is itself referenced (`Ref`), so
references are exactly what a path can reach. `Tree g d` is the well-formedness
of everything referenced: chains inside the table, directories on the disk with
clean terminators and valid unique names, and no cluster under two references.
It says nothing about unreachable clusters, and it only looks at copy 0 of the
table, as the driver does; `WellFormed` adds equal copies and file sizes.

`View g d d' X` compares two disks as a reader does: outside the slots in `X`
the same children, the same entries, the same file contents. `Untouched` is the
first of the three ways in which `fat_write` moves between well-formed disks:
writes that stay away from every referenced cluster (`Tree.untouched`).
-/

namespace InaneOS.Fat

open InaneOS.Lib

/-- Where a directory entry is: sector number and offset. -/
abbrev Slot := Nat × Nat

/-- The sectors of a chain, in order. -/
def secsOf (g : Geo) (cs : List Nat) : List Nat :=
  cs.flatMap fun c => (List.range g.secPerClus).map (clusLba c g + ·)

/-- The directory slots of a chain, in order. -/
def slots (g : Geo) (cs : List Nat) : List Slot :=
  (secsOf g cs).flatMap fun l => (List.range 16).map fun i => (l, i * 32)

/-- The entry in a slot. -/
def ent (d : Disk) (sl : Slot) : Nat → UInt8 := entryAt (d.data sl.1) sl.2

/-- `entry_name` accepts the entry. -/
def Shown (e : Nat → UInt8) : Prop := ∃ nm, entryName e = some nm

/-- First cluster of the root (`none`) or of the entry in a slot. -/
def first (g : Geo) (d : Disk) : Option Slot → Nat
  | none => g.rootClus
  | some sl => entClus (ent d sl)

def isDir (d : Disk) : Option Slot → Bool
  | none => true
  | some sl => entIsDir (ent d sl)

/-- `sl` is a shown slot of the directory `r`. -/
def Child (g : Geo) (d : Disk) (r : Option Slot) (sl : Slot) : Prop :=
  isDir d r = true ∧ ∃ cs, ClusChain g d (first g d r) cs ∧ sl ∈ slots g cs ∧ Shown (ent d sl)

/-- The root and every slot a path can reach. -/
inductive Ref (g : Geo) (d : Disk) : Option Slot → Prop
  | root : Ref g d none
  | entry {r : Option Slot} {sl : Slot} : Ref g d r → Child g d r sl → Ref g d (some sl)

/-- What was written can be read back. -/
def Readable (d : Disk) : Prop := ∀ l, d.drive.writes l = true → d.drive.reads l = true

theorem Readable.congr {d d' : Disk} (h : Readable d) (hd : d'.drive = d.drive) : Readable d' := by
  unfold Readable
  rw [hd]
  exact h

/-- Well-formedness of what is referenced. -/
structure Tree (g : Geo) (d : Disk) : Prop where
  geo : g.Ok
  fatsOn : FatsOn g d
  readable : Readable d
  /-- A directory has a first cluster. -/
  dirIn : ∀ r, Ref g d r → isDir d r = true → InRange g (first g d r)
  /-- A file has one too, or is empty. -/
  fileIn : ∀ sl, Ref g d (some sl) → isDir d (some sl) = false →
    InRange g (entClus (ent d sl)) ∨ entClus (ent d sl) = 0 ∧ entSize (ent d sl) = 0
  /-- Every chain stays in the table and ends with an end mark. -/
  chain : ∀ r, Ref g d r → InRange g (first g d r) → ∃ cs, ClusChain g d (first g d r) cs
  /-- The sectors of a directory can be read and written. -/
  onDisk : ∀ r cs, Ref g d r → isDir d r = true → ClusChain g d (first g d r) cs →
    ∀ l ∈ secsOf g cs, d.drive.Works l
  /-- After a directory's first 0x00 entry there are only such entries. -/
  clean : ∀ r cs, Ref g d r → isDir d r = true → ClusChain g d (first g d r) cs →
    (slots g cs).Pairwise fun a b => ent d a 0 = 0 → ent d b 0 = 0
  valid : ∀ sl, Ref g d (some sl) → ValidName (ent d sl)
  uniq : ∀ r a b, Ref g d r → Child g d r a → Child g d r b →
    raw11 (ent d a) = raw11 (ent d b) → a = b
  /-- Different references share no cluster. -/
  disj : ∀ r r' cs cs', Ref g d r → Ref g d r' → r ≠ r' → ClusChain g d (first g d r) cs →
    ClusChain g d (first g d r') cs' → cs.Disjoint cs'

/-- Every file's size fits its chain. -/
def Fits (g : Geo) (d : Disk) : Prop :=
  ∀ sl cs, Ref g d (some sl) → isDir d (some sl) = false → ClusChain g d (entClus (ent d sl)) cs →
    entSize (ent d sl) ≤ cs.length * g.secPerClus * 512

/-- The well-formed volumes: a sound tree, equal table copies, sizes that fit. -/
structure WellFormed (g : Geo) (d : Disk) : Prop where
  tree : Tree g d
  copies : Copies g d
  fits : Fits g d

/-- A cluster that some reference's chain goes through. -/
def Owned (g : Geo) (d : Disk) (c : Nat) : Prop :=
  ∃ r cs, Ref g d r ∧ ClusChain g d (first g d r) cs ∧ c ∈ cs

/-! ## Slots and entries -/

theorem mem_secsOf {g : Geo} {cs : List Nat} {l : Nat} :
    l ∈ secsOf g cs ↔ ∃ c ∈ cs, PosData g c l := by
  simp only [secsOf, List.mem_flatMap, List.mem_map, List.mem_range, PosData]
  constructor
  · intro h
    obtain ⟨c, hc, s, hs, rfl⟩ := h
    exact ⟨c, hc, by omega, by omega⟩
  · intro h
    obtain ⟨c, hc, h1, h2⟩ := h
    exact ⟨c, hc, l - clusLba c g, by omega, by omega⟩

theorem mem_slots {g : Geo} {cs : List Nat} {sl : Slot} :
    sl ∈ slots g cs ↔ sl.1 ∈ secsOf g cs ∧ ∃ i < 16, sl.2 = i * 32 := by
  simp only [slots, List.mem_flatMap, List.mem_map, List.mem_range]
  constructor
  · intro h
    obtain ⟨l, hl, i, hi, rfl⟩ := h
    exact ⟨hl, i, hi, rfl⟩
  · intro hx
    obtain ⟨hl, i, hi, h⟩ := hx
    exact ⟨sl.1, hl, i, hi, by rw [← h]⟩

theorem secsOf_append (g : Geo) (cs cs' : List Nat) :
    secsOf g (cs ++ cs') = secsOf g cs ++ secsOf g cs' := List.flatMap_append ..

theorem slots_append (g : Geo) (cs cs' : List Nat) :
    slots g (cs ++ cs') = slots g cs ++ slots g cs' := by
  rw [slots, secsOf_append, List.flatMap_append]
  rfl

/-- Two entries with the same 32 bytes. -/
def EntEq (e e' : Nat → UInt8) : Prop := ∀ i < 32, e i = e' i

section EntEq

variable {e e' : Nat → UInt8}

theorem EntEq.trans {e'' : Nat → UInt8} (h : EntEq e e') (h' : EntEq e' e'') : EntEq e e'' :=
  fun i hi => (h i hi).trans (h' i hi)

theorem EntEq.entryName (h : EntEq e e') : entryName e = entryName e' := by
  have h8 : (List.range 8).map e = (List.range 8).map e' :=
    List.map_congr_left fun i hi => h i (by have := List.mem_range.mp hi; omega)
  have h3 : ((List.range 3).map fun i => e (8 + i)) = (List.range 3).map fun i => e' (8 + i) :=
    List.map_congr_left fun i hi => h (8 + i) (by have := List.mem_range.mp hi; omega)
  unfold Fat.entryName
  rw [h 0 (by omega), h 8 (by omega), h 11 (by omega), h8, h3]

theorem EntEq.raw11 (h : EntEq e e') : raw11 e = raw11 e' :=
  List.map_congr_left fun i hi => h i (by have := List.mem_range.mp hi; omega)

theorem EntEq.clus (h : EntEq e e') : entClus e = entClus e' := by
  unfold entClus rd16
  rw [h 20 (by omega), h 21 (by omega), h 26 (by omega), h 27 (by omega)]

theorem EntEq.size (h : EntEq e e') : entSize e = entSize e' :=
  rd32_congr fun i _ hi => h i (by omega)

theorem EntEq.isDir (h : EntEq e e') : entIsDir e = entIsDir e' := by
  unfold entIsDir
  rw [h 11 (by omega)]

theorem EntEq.shown (h : EntEq e e') : Shown e ↔ Shown e' := by
  unfold Shown
  rw [h.entryName]

theorem EntEq.valid (h : EntEq e e') : ValidName e ↔ ValidName e' := by
  unfold ValidName
  rw [h.raw11]

end EntEq

theorem shown_ne_zero {e : Nat → UInt8} (h : Shown e) : e 0 ≠ 0 := by
  obtain ⟨nm, hnm⟩ := h
  exact (live_of_entryName hnm).1

/-! ## Facts about a tree -/

variable {g : Geo} {d d' : Disk}

theorem chain_zero {cs : List Nat} (h : ClusChain g d 0 cs) : False := by
  cases cs with
  | nil => exact absurd h.1 (by show ¬ eoc ≤ 0; decide)
  | cons x cs =>
    have hx := (h.2 x (by simp)).1
    rw [← h.1.1] at hx
    omega

theorem Ref.owned_slot {sl : Slot} (h : Ref g d (some sl)) :
    ∃ r cs, Ref g d r ∧ isDir d r = true ∧ ClusChain g d (first g d r) cs ∧
      sl ∈ slots g cs ∧ Shown (ent d sl) := by
  cases h with
  | entry hr hch =>
    obtain ⟨hd, cs, hcs, hsl, hsh⟩ := hch
    exact ⟨_, cs, hr, hd, hcs, hsl, hsh⟩

/-- A directory's chain. -/
theorem Tree.dirChain (h : Tree g d) {r : Option Slot} (hr : Ref g d r) (hd : isDir d r = true) :
    ∃ cs, ClusChain g d (first g d r) cs := h.chain r hr (h.dirIn r hr hd)

theorem Tree.firstIn (h : Tree g d) {r : Option Slot} (hr : Ref g d r) :
    InRange g (first g d r) ∨ first g d r = 0 := by
  cases hd : isDir d r with
  | true => exact Or.inl (h.dirIn r hr hd)
  | false =>
    cases r with
    | none => exact absurd hd (by simp [isDir])
    | some sl =>
      rcases h.fileIn sl hr hd with hin | h0
      · exact Or.inl hin
      · exact Or.inr h0.1

/-! ## What a reader sees -/

/-- The same tree for a reader, except at the slots in `X`. -/
structure View (g : Geo) (d d' : Disk) (X : Slot → Prop) : Prop where
  drive : d'.drive = d.drive
  child : ∀ r, Ref g d r → (∀ sl, r = some sl → ¬ X sl) → ∀ sl, ¬ X sl →
    (Child g d' r sl ↔ Child g d r sl)
  ent : ∀ sl, Ref g d (some sl) → ¬ X sl → EntEq (ent d' sl) (ent d sl)
  file : ∀ sl, Ref g d (some sl) → ¬ X sl → isDir d (some sl) = false → ∀ cs,
    ClusChain g d (entClus (Fat.ent d sl)) cs → ClusChain g d' (entClus (Fat.ent d sl)) cs ∧
      ∀ l ∈ secsOf g cs, d'.data l = d.data l

/-- Nothing that is referenced changed: neither the sectors nor the chains. -/
structure Untouched (g : Geo) (d d' : Disk) : Prop where
  drive : d'.drive = d.drive
  data : ∀ r cs, Ref g d r → ClusChain g d (first g d r) cs →
    ∀ l ∈ secsOf g cs, d'.data l = d.data l
  chains : ∀ r cs, Ref g d r → ClusChain g d (first g d r) cs → ClusChain g d' (first g d r) cs

namespace Untouched

variable (hu : Untouched g d d') (ht : Tree g d)

include hu

theorem ent_eq {sl : Slot} (h : Ref g d (some sl)) : ent d' sl = ent d sl := by
  obtain ⟨r, cs, hr, hd, hcs, hsl, -⟩ := h.owned_slot
  unfold ent
  rw [hu.data r cs hr hcs _ (mem_slots.mp hsl).1]

theorem first_eq {r : Option Slot} (h : Ref g d r) : first g d' r = first g d r := by
  cases r with
  | none => rfl
  | some sl => rw [first, first, hu.ent_eq h]

theorem isDir_eq {r : Option Slot} (h : Ref g d r) : isDir d' r = isDir d r := by
  cases r with
  | none => rfl
  | some sl => rw [isDir, isDir, hu.ent_eq h]

include ht

theorem chain_iff {r : Option Slot} (h : Ref g d r) {cs : List Nat} :
    ClusChain g d' (first g d' r) cs ↔ ClusChain g d (first g d r) cs := by
  rw [hu.first_eq h]
  refine ⟨fun hcs => ?_, hu.chains r cs h⟩
  rcases ht.firstIn h with hin | h0
  · obtain ⟨cs₀, h₀⟩ := ht.chain r h hin
    rw [hcs.unique (hu.chains r cs₀ h h₀)]
    exact h₀
  · rw [h0] at hcs
    exact (chain_zero hcs).elim

theorem child_iff {r : Option Slot} (h : Ref g d r) {sl : Slot} :
    Child g d' r sl ↔ Child g d r sl := by
  unfold Child
  rw [hu.isDir_eq h]
  refine and_congr_right fun hd => exists_congr fun cs => ?_
  rw [hu.chain_iff ht h]
  refine and_congr_right fun hcs => and_congr_right fun hsl => ?_
  unfold ent
  rw [hu.data r cs h hcs _ (mem_slots.mp hsl).1]

theorem ref_iff {r : Option Slot} : Ref g d' r ↔ Ref g d r := by
  constructor
  · intro h
    induction h with
    | root => exact Ref.root
    | entry _ hc ih => exact Ref.entry ih ((hu.child_iff ht ih).mp hc)
  · intro h
    induction h with
    | root => exact Ref.root
    | entry hr hc ih => exact Ref.entry ih ((hu.child_iff ht hr).mpr hc)

/-- A disk on which nothing referenced changed carries the same tree. -/
theorem tree : Tree g d' := by
  refine ⟨ht.geo, ht.fatsOn.congr hu.drive, ht.readable.congr hu.drive, fun r hr hd => ?_,
    fun sl hr hd => ?_, fun r hr hin => ?_,
    fun r cs hr hd hcs l hl => ?_, fun r cs hr hd hcs => ?_, fun sl hr => ?_,
    fun r a b hr ha hb hab => ?_, fun r r' cs cs' hr hr' hne hcs hcs' => ?_⟩
  · rw [hu.ref_iff ht] at hr
    rw [hu.isDir_eq hr] at hd
    rw [hu.first_eq hr]
    exact ht.dirIn r hr hd
  · rw [hu.ref_iff ht] at hr
    rw [hu.isDir_eq hr] at hd
    rw [hu.ent_eq hr]
    exact ht.fileIn sl hr hd
  · rw [hu.ref_iff ht] at hr
    rw [hu.first_eq hr] at hin
    obtain ⟨cs, hcs⟩ := ht.chain r hr hin
    exact ⟨cs, (hu.chain_iff ht hr).mpr hcs⟩
  · rw [hu.ref_iff ht] at hr
    rw [hu.isDir_eq hr] at hd
    rw [hu.drive]
    exact ht.onDisk r cs hr hd ((hu.chain_iff ht hr).mp hcs) l hl
  · rw [hu.ref_iff ht] at hr
    rw [hu.isDir_eq hr] at hd
    have hcs' := (hu.chain_iff ht hr).mp hcs
    have hent : ∀ a ∈ slots g cs, ent d' a = ent d a := fun a ha => by
      unfold ent
      rw [hu.data r cs hr hcs' _ (mem_slots.mp ha).1]
    refine (ht.clean r cs hr hd hcs').imp_of_mem fun ha hb hab => ?_
    rwa [hent _ ha, hent _ hb]
  · rw [hu.ref_iff ht] at hr
    rw [hu.ent_eq hr]
    exact ht.valid sl hr
  · rw [hu.ref_iff ht] at hr
    have ha' := (hu.child_iff ht hr).mp ha
    have hb' := (hu.child_iff ht hr).mp hb
    rw [hu.ent_eq (Ref.entry hr ha'), hu.ent_eq (Ref.entry hr hb')] at hab
    exact ht.uniq r a b hr ha' hb' hab
  · rw [hu.ref_iff ht] at hr hr'
    exact ht.disj r r' cs cs' hr hr' hne ((hu.chain_iff ht hr).mp hcs)
      ((hu.chain_iff ht hr').mp hcs')

/-- A reader sees no difference. -/
theorem view : View g d d' fun _ => False := by
  refine ⟨hu.drive, fun r hr _ sl _ => hu.child_iff ht hr, fun sl hr _ i _ => ?_,
    fun sl hr _ _ cs hcs => ⟨hu.chains _ cs hr hcs, hu.data _ cs hr hcs⟩⟩
  rw [hu.ent_eq hr]

theorem owned_iff {c : Nat} : Owned g d' c ↔ Owned g d c := by
  constructor
  · intro h
    obtain ⟨r, cs, hr, hcs, hc⟩ := h
    rw [hu.ref_iff ht] at hr
    exact ⟨r, cs, hr, (hu.chain_iff ht hr).mp hcs, hc⟩
  · intro h
    obtain ⟨r, cs, hr, hcs, hc⟩ := h
    exact ⟨r, cs, (hu.ref_iff ht).mpr hr, (hu.chain_iff ht hr).mpr hcs, hc⟩

end Untouched

theorem posData_sameOff {A B : Nat → Prop} (hg : g.Ok) (hs : SameOff g A B d d') {cs : List Nat}
    (hin : ∀ x ∈ cs, InRange g x) (hB : ∀ x ∈ cs, ¬ B x) :
    ∀ l ∈ secsOf g cs, d'.data l = d.data l := by
  intro l hl
  obtain ⟨c, hc, hp⟩ := mem_secsOf.mp hl
  exact hs.sector hg (hin c hc) (hB c hc) hp

/-- **Writes away from every referenced cluster** touch nothing referenced. -/
theorem Tree.untouched {A B : Nat → Prop} (ht : Tree g d) (hs : SameOff g A B d d')
    (hA : ∀ c, Owned g d c → ¬ A c) (hB : ∀ c, Owned g d c → ¬ B c) : Untouched g d d' :=
  ⟨hs.drive, fun r cs hr hcs => posData_sameOff ht.geo hs hcs.2
      fun x hx => hB x ⟨r, cs, hr, hcs, hx⟩,
    fun r cs hr hcs => hcs.sameOff ht.geo hs fun x hx => hA x ⟨r, cs, hr, hcs, hx⟩⟩

/-- Nor does a write of a table entry that leaves copy 0 as it was. -/
theorem Tree.untouched_copy {t : Nat} (ht : Tree g d)
    (hs : SameOff g (· = t) (fun _ => False) d d') (he : fatEntry g d' 0 t = fatEntry g d 0 t) :
    Untouched g d d' := by
  refine ⟨hs.drive, fun r cs hr hcs => posData_sameOff ht.geo hs hcs.2 (by simp),
    fun r cs hr hcs => ⟨hcs.1.congr fun x hx => ?_, hcs.2⟩⟩
  by_cases hxt : x = t
  · rw [hxt, link, link, he]
  · exact hs.link ht.geo (hcs.2 x hx).2 fun _ => hxt

end InaneOS.Fat
