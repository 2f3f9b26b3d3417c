import InaneOS.Fat.NewChain
import InaneOS.Fat.TreeGrow
import InaneOS.Fat.TreePut

/-!
# The old disk and the new one

At every cut of a `fat_write` the disk is, for a reader, one of two things: what
it was (`Old`), or what it was with the file's entry pointing to a chain that
holds all of the data (`New`). Both are stated with views, and views compose
(`View.trans`), so each phase only has to say what it does to the disk it finds.
-/

namespace InaneOS.Fat

open InaneOS.Lib

/-! ## Composing views -/

section Compose

variable {g : Geo} {d d' d'' : Disk} {X Y : Slot → Prop}

theorem View.mono (hv : View g d d' X) (h : ∀ sl, X sl → Y sl) : View g d d' Y :=
  ⟨hv.drive, fun r hr hx sl hsl => hv.child r hr (fun a ha hxa => hx a ha (h a hxa)) sl
      fun hx => hsl (h sl hx),
    fun sl hr hsl => hv.ent sl hr fun hx => hsl (h sl hx),
    fun sl hr hsl => hv.file sl hr fun hx => hsl (h sl hx)⟩

/-- References outside `X` are still there. -/
theorem View.ref (hv : View g d d' X) (hX : NoDirs g d X) {r : Option Slot} (h : Ref g d r) :
    (∀ a, r = some a → ¬ X a) → Ref g d' r := by
  induction h with
  | root => exact fun _ => Ref.root
  | @entry r sl hr hc ih =>
    intro hsl
    have hrx : ∀ a, r = some a → ¬ X a := by
      intro a he hxa
      subst he
      exact absurd (hX a hxa hr) (by rw [hc.1]; simp)
    exact Ref.entry (ih hrx) ((hv.child r hr hrx sl (hsl sl rfl)).mpr hc)

theorem View.isDir' (hv : View g d d' X) {r : Option Slot} (hr : Ref g d r)
    (hx : ∀ a, r = some a → ¬ X a) : Fat.isDir d' r = Fat.isDir d r := by
  cases r with
  | none => rfl
  | some sl => exact hv.isDir hr (hx sl rfl)

theorem View.first (hv : View g d d' X) {r : Option Slot} (hr : Ref g d r)
    (hx : ∀ a, r = some a → ¬ X a) : first g d' r = first g d r := by
  cases r with
  | none => rfl
  | some sl => exact (hv.ent sl hr (hx sl rfl)).clus

theorem View.trans (hv : View g d d' X) (hv' : View g d' d'' X) (hX : NoDirs g d X) :
    View g d d'' X := by
  have href : ∀ {sl : Slot}, Ref g d (some sl) → ¬ X sl → Ref g d' (some sl) := fun hr hsl =>
    hv.ref hX hr fun a ha => by cases ha; exact hsl
  refine ⟨hv'.drive.trans hv.drive, fun r hr hx sl hsl => ?_, fun sl hr hsl => ?_,
    fun sl hr hsl hd cs hcs => ?_⟩
  · exact (hv'.child r (hv.ref hX hr hx) hx sl hsl).trans (hv.child r hr hx sl hsl)
  · exact (hv'.ent sl (href hr hsl) hsl).trans (hv.ent sl hr hsl)
  · obtain ⟨hc, hd₁⟩ := hv.file sl hr hsl hd cs hcs
    have he := (hv.ent sl hr hsl).clus
    rw [← he] at hc
    obtain ⟨hc', hd₂⟩ := hv'.file sl (href hr hsl) hsl ((hv.isDir hr hsl).trans hd) cs hc
    rw [he] at hc'
    exact ⟨hc', fun l hl => (hd₂ l hl).trans (hd₁ l hl)⟩

end Compose

/-! ## Old and new -/

/-- Nothing happened, for a reader. -/
structure Old (g : Geo) (d₀ d : Disk) : Prop where
  tree : Tree g d
  view : View g d₀ d fun _ => False

/-- The file `name83` of directory `r₀` is in slot `sl₀` and holds `buf`; nothing
else happened. -/
structure New (g : Geo) (d₀ : Disk) (r₀ : Option Slot) (name83 buf : Str) (sl₀ : Slot) (d : Disk) :
    Prop where
  tree : Tree g d
  view : View g d₀ d (· = sl₀)
  /-- If the slot was in use before, then by this very name. -/
  only : Ref g d₀ (some sl₀) → Holding g d₀ r₀ name83 sl₀ ∧ isDir d₀ (some sl₀) = false
  ref : Ref g d r₀
  here : Holding g d r₀ name83 sl₀
  file : isDir d (some sl₀) = false
  size : entSize (ent d sl₀) = buf.length % 2 ^ 32
  data : ∃ ncs, FileChain g d sl₀ ncs ∧ Holds d (secsOf g ncs) buf

theorem Tree.old {g : Geo} {d : Disk} (ht : Tree g d) : Old g d d := by
  have hu : Untouched g d d := ⟨rfl, fun _ _ _ _ _ _ => rfl, fun _ _ _ h => h⟩
  exact ⟨ht, hu.view ht⟩

theorem noDirs_empty (g : Geo) (d : Disk) : NoDirs g d fun _ => False := fun _ h => h.elim

theorem Old.frame {g : Geo} {d₀ d d' : Disk} (h : Old g d₀ d) (hu : Untouched g d d') :
    Old g d₀ d' :=
  ⟨hu.tree h.tree, h.view.trans (hu.view h.tree) (noDirs_empty g d₀)⟩

section New

variable {g : Geo} {d₀ d d' : Disk} {r₀ : Option Slot} {name83 buf : Str} {sl₀ : Slot}

theorem New.noDirs (h : New g d₀ r₀ name83 buf sl₀ d) : NoDirs g d₀ (· = sl₀) := by
  intro sl he hr
  subst he
  exact (h.only hr).2

/-- What is away from everything referenced does not matter. -/
theorem New.frame (h : New g d₀ r₀ name83 buf sl₀ d) (hu : Untouched g d d') :
    New g d₀ r₀ name83 buf sl₀ d' := by
  have hv := hu.view h.tree
  have hr : Ref g d (some sl₀) := Ref.entry h.ref h.here.1
  have he := hv.ent sl₀ hr (by simp)
  obtain ⟨ncs, hch, hh⟩ := h.data
  refine ⟨hu.tree h.tree, h.view.trans (hv.mono fun _ h => h.elim) h.noDirs, h.only,
    (hu.ref_iff h.tree).mpr h.ref, ⟨(hu.child_iff h.tree h.ref).mpr h.here.1, ?_⟩, ?_, ?_,
    ncs, (hv.fileChain hr (by simp) h.file hch).1, ?_⟩
  · rw [he.raw11]
    exact h.here.2
  · rw [hv.isDir hr (by simp)]
    exact h.file
  · rw [he.size]
    exact h.size
  · refine hh.congr hv.drive ?_
    rcases hch with hch | ⟨-, rfl⟩
    · exact (hv.file sl₀ hr (by simp) h.file ncs hch).2
    · simp [secsOf]

end New

/-- While only free clusters are touched nothing happens for a reader. -/
theorem Kept.untouched {f₀ : Vol} (ht : Tree f₀.toGeo f₀.disk) {d : Disk}
    (h : SameOff f₀.toGeo (Free f₀) (Free f₀) f₀.disk d) : Untouched f₀.toGeo f₀.disk d :=
  ht.untouched h (fun _ ho hf => hf ho) (fun _ ho hf => hf ho)

theorem Kept.old {f₀ : Vol} (ht : Tree f₀.toGeo f₀.disk) {d : Disk}
    (h : SameOff f₀.toGeo (Free f₀) (Free f₀) f₀.disk d) : Old f₀.toGeo f₀.disk d :=
  ht.old.frame (Kept.untouched ht h)

/-! ## The entry that is stored -/

/-- The entry `fill_entry` makes for a new file. -/
theorem fillEntry_file {s : Sector} {o clus size : Nat} {name83 base ext : Str}
    (hp : ValidParts base ext) (hname : name83 = pad 8 base ++ pad 3 ext) (h5 : 0xE5 ∉ base)
    (hc : clus < 2 ^ 32) (hs : size < 2 ^ 32) {e : Nat → UInt8}
    (he : e = entryAt (fillEntry s o name83 0x20 clus size) o) :
    raw11 e = name83 ∧ entryName e = some (render base ext) ∧ entIsDir e = false ∧
      entClus e = clus ∧ entSize e = size := by
  subst he
  have hlen : name83.length = 11 := by
    rw [hname, List.length_append, pad_length hp.base_le, pad_length hp.ext_le]
  have hraw : raw11 (entryAt (fillEntry s o name83 0x20 clus size) o) = name83 :=
    fillEntry_raw11 hlen
  have h11 : entryAt (fillEntry s o name83 0x20 clus size) o 11 = 0x20 := fillEntry_attr
  have hfirst : ∃ c ∈ base, entryAt (fillEntry s o name83 0x20 clus size) o 0 = c := by
    cases hb : base with
    | nil => exact absurd hb hp.base_pos
    | cons c cs =>
      refine ⟨c, by simp, ?_⟩
      have h0 : fillEntry s o name83 0x20 clus size (o + 0) = name83.getD 0 0 :=
        fillEntry_name (by decide)
      rw [show name83.getD 0 0 = c by rw [hname, hb]; rfl] at h0
      exact h0
  obtain ⟨c, hcb, h0⟩ := hfirst
  have hlive : Live (entryAt (fillEntry s o name83 0x20 clus size) o) := by
    refine ⟨?_, ?_, by rw [h11]; decide, by rw [h11]; decide⟩
    · rw [h0]
      exact (ne_of_validChar (hp.base_ok c hcb)).2.2.2
    · rw [h0]
      intro he
      subst he
      exact h5 hcb
  refine ⟨hraw, entryName_valid hlive hp (hraw.trans hname), ?_, fillEntry_clus hc,
    fillEntry_size hs⟩
  rw [entIsDir, h11]
  decide

end InaneOS.Fat
