import InaneOS.Fat.OldNew

/-!
# Storing the entry

The second phase of `fat_write`. `Ready` is the moment before the entry's sector
is written: every cut so far is old, the buffer holds the sector of a slot that
may take the entry, and the new chain is under no reference. One write later the
disk is new (`Ready.store`), and releasing the old chain keeps it so
(`Ready.release`). `growDir` and `dirSlot` are the ways to get ready for a name
that does not exist yet; every failure on the way leaves the disk old.
-/

namespace InaneOS.Fat

open InaneOS.Lib

/-- The entry `name83` of `r₀` may now be stored in `sl₀`. -/
structure Ready (f₀ f : Vol) (ws : List (Nat × Sector)) (r₀ : Option Slot) (name83 : Str)
    (ncs : List Nat) (buf : Str) (sl₀ : Slot) : Prop where
  ran : Ran f₀ f ws
  inside : ∀ w ∈ ws, Inside f₀.toGeo w.1
  cuts : Always Disk.put (Old f₀.toGeo f₀.disk) f₀.disk ws
  copies : Copies f₀.toGeo f₀.disk → Copies f₀.toGeo f.disk
  chain : ncs ≠ [] → ClusChain f₀.toGeo f.disk (ncs.headD 0) ncs
  free : ∀ x ∈ ncs, ¬ Owned f₀.toGeo f.disk x
  holds : Holds f.disk (secsOf f₀.toGeo ncs) buf
  ref : Ref f₀.toGeo f.disk r₀
  dir : isDir f.disk r₀ = true
  slot : ∃ cs l₁ l₂, ClusChain f₀.toGeo f.disk (first f₀.toGeo f.disk r₀) cs ∧
    slots f₀.toGeo cs = l₁ ++ sl₀ :: l₂ ∧ ∀ a ∈ l₁, ent f.disk a 0 ≠ 0
  old : Shown (ent f.disk sl₀) → entIsDir (ent f.disk sl₀) = false
  name : ∀ sl, Holding f₀.toGeo f.disk r₀ name83 sl → sl = sl₀
  only : Ref f₀.toGeo f₀.disk (some sl₀) → Holding f₀.toGeo f₀.disk r₀ name83 sl₀ ∧
    isDir f₀.disk (some sl₀) = false
  sec : f.sec = f.disk.data sl₀.1

/-- The write that stores the entry. -/
def entryWrite (d : Disk) (sl₀ : Slot) (name83 : Str) (clus size : Nat) : Nat × Sector :=
  (sl₀.1, fillEntry (d.data sl₀.1) sl₀.2 name83 0x20 clus size)

/-- The disk with the entry stored. -/
def putEntry (d : Disk) (sl₀ : Slot) (name83 : Str) (clus size : Nat) : Disk :=
  d.put (entryWrite d sl₀ name83 clus size)

namespace Ready

variable {f₀ f : Vol} {ws : List (Nat × Sector)} {r₀ : Option Slot} {name83 base ext : Str}
  {ncs : List Nat} {buf : Str} {sl₀ : Slot} (h : Ready f₀ f ws r₀ name83 ncs buf sl₀)

include h

theorem geo : f.toGeo = f₀.toGeo := h.ran.geo

theorem final : Old f₀.toGeo f₀.disk f.disk := by
  rw [h.ran.disk]
  exact h.cuts.final

theorem slot_pos : ∃ c, InRange f₀.toGeo c ∧ PosData f₀.toGeo c sl₀.1 ∧
    f.disk.drive.Works sl₀.1 := by
  obtain ⟨cs, l₁, l₂, hcs, hsl, -⟩ := h.slot
  have hmem : sl₀ ∈ slots f₀.toGeo cs := by rw [hsl]; simp
  have hsec := (mem_slots.mp hmem).1
  obtain ⟨c, hc, hpos⟩ := mem_secsOf.mp hsec
  exact ⟨c, hcs.2 c hc, hpos, h.final.tree.onDisk r₀ cs h.ref h.dir hcs _ hsec⟩

theorem headD_in (hne : ncs ≠ []) : InRange f₀.toGeo (ncs.headD 0) :=
  (h.chain hne).2 _ (by
    cases ncs with
    | nil => exact absurd rfl hne
    | cons a l => simp)

theorem clus_lt : ncs.headD 0 < 2 ^ 32 := by
  by_cases hne : ncs = []
  · rw [hne]
    decide
  · have hlt := (h.headD_in hne).lt_eoc h.final.tree.geo
    unfold eoc at hlt
    omega

/-- Without a chain there is no data. -/
theorem buf_nil (hne : ncs = []) : buf = [] := by
  have hh := h.holds
  rw [hne] at hh
  cases buf with
  | nil => rfl
  | cons b bs => exact hh.elim

variable (hp : ValidParts base ext) (hname : name83 = pad 8 base ++ pad 3 ext) (h5 : 0xE5 ∉ base)

include hp hname h5

/-- What the slot shows afterwards. -/
theorem entry {e : Nat → UInt8}
    (he : e = ent (putEntry f.disk sl₀ name83 (ncs.headD 0) (buf.length % 2 ^ 32)) sl₀) :
    raw11 e = name83 ∧ entryName e = some (render base ext) ∧ entIsDir e = false ∧
      entClus e = ncs.headD 0 ∧ entSize e = buf.length % 2 ^ 32 := by
  obtain ⟨c, -, -, hlt⟩ := h.slot_pos
  refine fillEntry_file hp hname h5 h.clus_lt (Nat.mod_lt _ (by decide))
    (s := f.disk.data sl₀.1) (o := sl₀.2) ?_
  rw [he, ent, putEntry, entryWrite, Disk.put_data_same _ hlt.2]

/-- Storing the entry is a `Put`. -/
theorem put : Put f₀.toGeo f.disk (putEntry f.disk sl₀ name83 (ncs.headD 0) (buf.length % 2 ^ 32))
    r₀ sl₀ := by
  obtain ⟨hraw, hn, hd, hcl, hsz⟩ := h.entry hp hname h5 rfl
  refine ⟨h.ref, h.dir, h.slot, h.old, fun sl hc hr => h.name sl ⟨hc, hr.trans hraw⟩, rfl,
    fun l i hli => ?_, ⟨_, hn⟩, ⟨base, ext, hp, hraw.trans hname⟩, hd, ?_⟩
  · by_cases hl : l = sl₀.1
    · obtain ⟨c, -, -, hlt⟩ := h.slot_pos
      rw [hl, putEntry, entryWrite, Disk.put_data_same _ hlt.2, fillEntry_other (hli hl)]
    · exact congrFun (Disk.put_data_ne _ hl) i
  · rw [hcl, hsz]
    by_cases hne : ncs = []
    · rw [hne, h.buf_nil hne]
      exact Or.inl ⟨rfl, rfl⟩
    · exact Or.inr ⟨h.headD_in hne, ncs, h.chain hne, h.free⟩

/-- **One write and the file is there.** -/
theorem store : New f₀.toGeo f₀.disk r₀ name83 buf sl₀
    (putEntry f.disk sl₀ name83 (ncs.headD 0) (buf.length % 2 ^ 32)) := by
  have hput := h.put hp hname h5
  have htree := h.final.tree
  obtain ⟨hraw, -, hd, hcl, hsz⟩ := h.entry hp hname h5 rfl
  have hnd : NoDirs f₀.toGeo f₀.disk (· = sl₀) := by
    intro sl he hr
    subst he
    exact (h.only hr).2
  refine ⟨hput.tree htree, (h.final.view.mono fun _ h => h.elim).trans (hput.view htree) hnd,
    h.only, hput.ref_of htree h.ref hput.r₀_ne, ⟨hput.child_slot htree, hraw⟩, hd, hsz,
    ncs, ?_, ?_⟩
  · unfold FileChain
    rw [hcl, hsz]
    by_cases hne : ncs = []
    · rw [hne, h.buf_nil hne]
      exact Or.inr ⟨⟨rfl, rfl⟩, rfl⟩
    · exact Or.inl ((hput.chain_iff htree).mpr (h.chain hne))
  · -- the slot's sector belongs to a directory, so none of the new chain's is written
    have hdrive : (putEntry f.disk sl₀ name83 (ncs.headD 0) (buf.length % 2 ^ 32)).drive
        = f.disk.drive := rfl
    refine h.holds.congr hdrive fun l hl => ?_
    obtain ⟨x, hx, hxpos⟩ := mem_secsOf.mp hl
    have hne : ncs ≠ [] := by
      intro he
      subst he
      simp at hx
    refine Disk.put_data_ne _ fun hls => ?_
    obtain ⟨cs, y, hcs, hy, hypos⟩ := hput.slot_posData
    rw [show l = sl₀.1 from hls] at hxpos
    have hxy := posData_inj htree.geo ((h.chain hne).2 x hx) (hcs.2 y hy) hxpos hypos
    exact h.free x hx ⟨r₀, cs, h.ref, hcs, hxy ▸ hy⟩

end Ready

/-! ## Outcomes -/

/-- What a call of `fat_write` that got as far as writing leaves behind, at every
cut and at its end. -/
structure Stored (f₀ f : Vol) (ws : List (Nat × Sector)) (r₀ : Option Slot) (name83 buf : Str)
    (ok : Bool) : Prop where
  ran : Ran f₀ f ws
  inside : ∀ w ∈ ws, Inside f₀.toGeo w.1
  copies : Copies f₀.toGeo f₀.disk → Copies f₀.toGeo f.disk
  cuts : Always Disk.put (fun d => Old f₀.toGeo f₀.disk d ∨
    ∃ sl₀, New f₀.toGeo f₀.disk r₀ name83 buf sl₀ d) f₀.disk ws
  new : ok = true → ∃ sl₀, New f₀.toGeo f₀.disk r₀ name83 buf sl₀ f.disk
  old : ok = false → Old f₀.toGeo f₀.disk f.disk

theorem Kept.stored {f₀ f : Vol} {ws : List (Nat × Sector)} (h : Kept f₀ f ws)
    (ht : Tree f₀.toGeo f₀.disk) (r₀ : Option Slot) (name83 buf : Str) :
    Stored f₀ f ws r₀ name83 buf false :=
  ⟨h.ran, h.inside, h.copies, h.cuts.imp fun _ hd => Or.inl (Kept.old ht hd), by simp,
    fun _ => Kept.old ht h.sameOff⟩

section Switch

variable {f₀ f : Vol} {ws : List (Nat × Sector)} {r₀ : Option Slot} {name83 base ext : Str}
  {ncs : List Nat} {buf : Str} {sl₀ : Slot} (h : Ready f₀ f ws r₀ name83 ncs buf sl₀)
  (hp : ValidParts base ext) (hname : name83 = pad 8 base ++ pad 3 ext) (h5 : 0xE5 ∉ base)

include h hp hname h5

/-- The state after the entry's sector is written. -/
theorem Ready.stored {f₁ : Vol}
    (hran : Ran f f₁ [entryWrite f.disk sl₀ name83 (ncs.headD 0) (buf.length % 2 ^ 32)]) :
    Stored f₀ f₁ (ws ++ [entryWrite f.disk sl₀ name83 (ncs.headD 0) (buf.length % 2 ^ 32)]) r₀
        name83 buf true ∧ New f₀.toGeo f₀.disk r₀ name83 buf sl₀ f₁.disk := by
  obtain ⟨c, hcin, hpos, -⟩ := h.slot_pos
  have htree := h.final.tree
  have hput := h.put hp hname h5
  have hdisk : f₁.disk = putEntry f.disk sl₀ name83 (ncs.headD 0) (buf.length % 2 ^ 32) := hran.disk
  have hnew : New f₀.toGeo f₀.disk r₀ name83 buf sl₀ f₁.disk := by
    rw [hdisk]
    exact h.store hp hname h5
  refine ⟨⟨h.ran.trans hran, fun w hw => ?_, fun hcp k hk a ha => ?_, ?_, fun _ => ⟨sl₀, hnew⟩,
    by simp⟩, hnew⟩
  · rcases List.mem_append.mp hw with hw | hw
    · exact h.inside w hw
    · rw [List.mem_singleton.mp hw]
      exact inside_posData htree.geo hcin hpos
  · rw [hdisk, hput.entry_eq htree hk ha, hput.entry_eq htree htree.geo.fats_pos ha]
    exact h.copies hcp k hk a ha
  · refine (h.cuts.imp fun _ hd => Or.inl hd).append ?_
    have hd : f.disk = ws.foldl Disk.put f₀.disk := h.ran.disk
    rw [← hd]
    exact ⟨Or.inl h.final, Or.inr ⟨sl₀, h.store hp hname h5⟩⟩

/-- Releasing the chain the entry pointed to before: the old tree owned it, the new
one does not. -/
theorem Ready.release {fuel : Nat} (hfuel : f₀.fatSz * 128 ≤ fuel) {f₁ : Vol}
    (hran : Ran f f₁ [entryWrite f.disk sl₀ name83 (ncs.headD 0) (buf.length % 2 ^ 32)])
    (href : Ref f₀.toGeo f₀.disk (some sl₀)) (hge : entClus (ent f₀.disk sl₀) ≥ 2) :
    ∃ f' vs, freeChain fuel (entClus (ent f₀.disk sl₀)) f₁ = some f' ∧
      Stored f₀ f' (ws ++ [entryWrite f.disk sl₀ name83 (ncs.headD 0) (buf.length % 2 ^ 32)] ++ vs)
        r₀ name83 buf true := by
  have ht₀ := h.cuts.start.tree
  have hput := h.put hp hname h5
  obtain ⟨hst, hnew⟩ := h.stored hp hname h5 hran
  have hdisk : f₁.disk = putEntry f.disk sl₀ name83 (ncs.headD 0) (buf.length % 2 ^ 32) := hran.disk
  have hgeo : f₁.toGeo = f₀.toGeo := hst.ran.geo
  have hfile := (h.only href).2
  -- the chain before, in the middle and after the switch
  obtain ⟨cs, hcs⟩ : ∃ cs, ClusChain f₀.toGeo f₀.disk (entClus (ent f₀.disk sl₀)) cs := by
    rcases ht₀.fileIn sl₀ href hfile with hin | h0
    · exact ht₀.chain (some sl₀) href hin
    · omega
  have hcl : entClus (ent f.disk sl₀) = entClus (ent f₀.disk sl₀) :=
    (h.final.view.ent sl₀ href (by simp)).clus
  have hcs₁ := (h.final.view.file sl₀ href (by simp) hfile cs hcs).1
  have href₁ : Ref f₀.toGeo f.disk (some sl₀) :=
    h.final.view.ref (noDirs_empty _ _) href (by simp)
  have hcs₂ : ClusChain f₀.toGeo f₁.disk (entClus (ent f₀.disk sl₀)) cs := by
    rw [hdisk]
    exact (hput.chain_iff h.final.tree).mpr hcs₁
  have hnot : ∀ x, Owned f₀.toGeo f₁.disk x → x ∉ cs := fun x hx hxc => by
    rw [hdisk] at hx
    rw [← hcl] at hcs₁
    exact hput.old_free h.final.tree href₁ hcs₁ hxc hx
  obtain ⟨f', vs, hrun, hran', hin, hcut, -, hcp⟩ := freeChain_spec cs _ fuel f₁
    (by rw [hgeo]; exact ht₀.geo) (by rw [hgeo]; exact hnew.tree.fatsOn)
    (by rw [hgeo]; exact hcs₂) (Nat.lt_of_lt_of_le (hcs.length_lt ht₀.geo) hfuel)
  rw [hgeo] at hin hcut hcp
  have hframe : ∀ d, SameOff f₀.toGeo (· ∈ cs) (fun _ => False) f₁.disk d →
      New f₀.toGeo f₀.disk r₀ name83 buf sl₀ d := fun d hd =>
    hnew.frame (hnew.tree.untouched hd hnot (by simp))
  refine ⟨f', vs, hrun, hst.ran.trans hran', fun w hw => ?_, fun h => hcp (hst.copies h),
    hst.cuts.append ?_, fun _ => ⟨sl₀, ?_⟩, by simp⟩
  · rcases List.mem_append.mp hw with hw | hw
    · exact hst.inside w hw
    · exact hin w hw
  · have hd : f₁.disk = List.foldl Disk.put f₀.disk _ := hst.ran.disk
    rw [← hd]
    exact hcut.imp fun d hd => Or.inr ⟨sl₀, hframe d hd⟩
  · rw [hran'.disk]
    exact hframe _ hcut.final

/-- **The switch**: the entry is written, and then the old chain, if there was
one, is released. -/
theorem Ready.switch {fuel : Nat} (hfuel : f₀.fatSz * 128 ≤ fuel) (found : Option Found)
    (hfound : ∀ fd, found = some fd → Ref f₀.toGeo f₀.disk (some sl₀) ∧
      fd.clus = entClus (ent f₀.disk sl₀)) :
    ∃ f' vs, switchEntry fuel found sl₀.1 sl₀.2 name83 (ncs.headD 0) buf.length f =
      some (true, f') ∧
      Stored f₀ f' vs r₀ name83 buf true := by
  obtain ⟨c, -, -, hlt⟩ := h.slot_pos
  unfold switchEntry
  simp only [ideWrite, hlt.2, h.sec]
  have hran : Ran f { f with
      disk := f.disk.put (entryWrite f.disk sl₀ name83 (ncs.headD 0) (buf.length % 2 ^ 32))
      sec := (entryWrite f.disk sl₀ name83 (ncs.headD 0) (buf.length % 2 ^ 32)).2 }
      [entryWrite f.disk sl₀ name83 (ncs.headD 0) (buf.length % 2 ^ 32)] := ⟨_, f.allocHint, rfl⟩
  have hst := (h.stored hp hname h5 hran).1
  cases found with
  | none => exact ⟨_, _, rfl, hst⟩
  | some fd =>
    obtain ⟨href, hcl⟩ := hfound fd rfl
    simp only [hcl]
    by_cases hge : entClus (ent f₀.disk sl₀) ≥ 2
    · obtain ⟨f', vs, hfree, hst'⟩ := h.release hp hname h5 hfuel hran href hge
      refine ⟨f', _, ?_, hst'⟩
      rw [if_pos hge]
      exact congrArg (Option.map fun f => (true, f)) hfree
    · exact ⟨_, _, by rw [if_neg hge]; rfl, hst⟩

end Switch

/-! ## Getting ready in a directory that has room -/

theorem View.holding {g : Geo} {d d' : Disk} (hv : View g d d' fun _ => False) {r : Option Slot}
    (hr : Ref g d r) {name83 : Str} {sl : Slot} (h : Holding g d' r name83 sl) :
    Holding g d r name83 sl := by
  have hc := (hv.child r hr (by simp) sl (by simp)).mp h.1
  refine ⟨hc, ?_⟩
  rw [← (hv.ent sl (Ref.entry hr hc) (by simp)).raw11]
  exact h.2

section Ready

variable {f₀ f : Vol} {ws : List (Nat × Sector)} {r₀ : Option Slot} {name83 : Str}
  {ncs : List Nat} {buf : Str} (ht : Tree f₀.toGeo f₀.disk) (hr₀ : Ref f₀.toGeo f₀.disk r₀)
  (hd₀ : isDir f₀.disk r₀ = true) {cs : List Nat}
  (hcs : ClusChain f₀.toGeo f₀.disk (first f₀.toGeo f₀.disk r₀) cs)

include ht hr₀ hd₀ hcs

/-- A slot of the directory as it was can take the entry. -/
theorem Built.ready (h : Built f₀ f ws ncs buf) {sl₀ : Slot} {l₁ l₂ : List Slot}
    (hsl : slots f₀.toGeo cs = l₁ ++ sl₀ :: l₂) (hbef : ∀ a ∈ l₁, ent f₀.disk a 0 ≠ 0)
    (hold : Shown (ent f₀.disk sl₀) → entIsDir (ent f₀.disk sl₀) = false)
    (hname : ∀ sl, Holding f₀.toGeo f₀.disk r₀ name83 sl → sl = sl₀)
    (honly : Ref f₀.toGeo f₀.disk (some sl₀) → Holding f₀.toGeo f₀.disk r₀ name83 sl₀ ∧
      isDir f₀.disk (some sl₀) = false)
    (hsec : f.sec = f.disk.data sl₀.1) : Ready f₀ f ws r₀ name83 ncs buf sl₀ := by
  have hu := Kept.untouched ht h.sameOff
  have hent : ∀ a ∈ slots f₀.toGeo cs, ent f.disk a = ent f₀.disk a := fun a ha => by
    unfold ent
    rw [hu.data r₀ cs hr₀ hcs _ (mem_slots.mp ha).1]
  have hsl₀ := hent sl₀ (by rw [hsl]; simp)
  refine ⟨h.ran, h.inside, h.cuts.imp fun _ hd => Kept.old ht hd, h.copies, h.chain,
    fun x hx ho => h.free x hx ((hu.owned_iff ht).mp ho), h.holds, (hu.ref_iff ht).mpr hr₀,
    (hu.isDir_eq hr₀).trans hd₀, ⟨cs, l₁, l₂, (hu.chain_iff ht hr₀).mpr hcs, hsl, fun a ha => ?_⟩,
    ?_, fun sl hs => hname sl ((hu.view ht).holding hr₀ hs), honly, hsec⟩
  · rw [hent a (by rw [hsl]; simp [ha])]
    exact hbef a ha
  · rw [hsl₀]
    exact hold

end Ready

/-! ## Growing the directory -/

/-- A chain that a call stays away from is still there. -/
theorem Built.other {f₀ f f' : Vol} {ws vs : List (Nat × Sector)} {ncs : List Nat} {out : Str}
    {A B : Nat → Prop} (h : Built f₀ f ws ncs out) (ht : Tree f₀.toGeo f₀.disk)
    (hk : Kept f₀ f' vs) (hoff : SameOff f₀.toGeo A B f.disk f'.disk) (hA : ∀ x ∈ ncs, ¬ A x)
    (hB : ∀ x ∈ ncs, ¬ B x) : Built f₀ f' vs ncs out := by
  refine ⟨hk, fun hne => (h.chain hne).sameOff ht.geo hoff hA, h.free, ?_⟩
  by_cases hne : ncs = []
  · have hh := h.holds
    rw [hne] at hh ⊢
    cases out with
    | nil => exact trivial
    | cons b bs => exact hh.elim
  · exact h.holds.congr hoff.drive (posData_sameOff ht.geo hoff (h.chain hne).2 hB)

theorem slots_head {g : Geo} (hg : g.Ok) (c : Nat) : ∃ l, slots g [c] = (clusLba c g, 0) :: l := by
  obtain ⟨n, hn⟩ : ∃ n, g.secPerClus = n + 1 := ⟨g.secPerClus - 1, by have := hg.spc_pos; omega⟩
  rw [slots_cons, hn, List.range'_succ, List.flatMap_cons]
  exact ⟨_, rfl⟩

section Grow

variable {f₀ f : Vol} {ws : List (Nat × Sector)} {r₀ : Option Slot} {name83 : Str}
  {ncs : List Nat} {buf : Str} (ht : Tree f₀.toGeo f₀.disk) (hr₀ : Ref f₀.toGeo f₀.disk r₀)
  (hd₀ : isDir f₀.disk r₀ = true) {l : List Nat} {t : Nat}
  (hcs : ClusChain f₀.toGeo f₀.disk (first f₀.toGeo f₀.disk r₀) (l ++ [t]))

include ht hr₀ hd₀ hcs

/-- Redirecting the directory's last link to a zeroed free cluster is a `Grow`. -/
theorem Kept.grow {nc : Nat} (h : Kept f₀ f ws) (hr : InRange f₀.toGeo nc) (hfree : Free f₀ nc)
    (hmark : fatEntry f₀.toGeo f.disk 0 nc = lastMark)
    (hzero : ∀ s, PosData f₀.toGeo nc s → f.disk.drive.Works s ∧ ∀ i, f.disk.data s i = 0)
    {d : Disk}
    (hoff : SameOff f₀.toGeo (· = t) (fun _ => False) f.disk d)
    (hlink : fatEntry f₀.toGeo d 0 t = nc) : Grow f₀.toGeo f.disk d r₀ l t nc := by
  have hu := Kept.untouched ht h.sameOff
  refine ⟨(hu.ref_iff ht).mpr hr₀, (hu.isDir_eq hr₀).trans hd₀, (hu.chain_iff ht hr₀).mpr hcs,
    fun ho => hfree ((hu.owned_iff ht).mp ho), hr, ?_, hzero, hoff, hlink⟩
  rw [link_of_entry hmark (by decide)]
  decide

/-- The directory has grown and its first new slot takes the entry. -/
theorem Built.ready_grown {nc : Nat} {f' : Vol} {vs : List (Nat × Sector)}
    (h : Built f₀ f ws ncs buf) (hr : InRange f₀.toGeo nc) (hfree : Free f₀ nc) (hnc : nc ∉ ncs)
    (hmark : fatEntry f₀.toGeo f.disk 0 nc = lastMark)
    (hzero : ∀ s, PosData f₀.toGeo nc s → f.disk.drive.Works s ∧ ∀ i, f.disk.data s i = 0)
    (hbef : ∀ a ∈ slots f₀.toGeo (l ++ [t]), ent f₀.disk a 0 ≠ 0)
    (hno : ∀ sl, ¬ Holding f₀.toGeo f₀.disk r₀ name83 sl)
    (hd : SetDone f t nc f' vs) (hsec : f'.sec = f'.disk.data (clusLba nc f₀.toGeo)) :
    Ready f₀ f' (ws ++ vs) r₀ name83 ncs buf (clusLba nc f₀.toGeo, 0) := by
  have hg : f.toGeo = f₀.toGeo := h.ran.geo
  have hu := Kept.untouched ht h.sameOff
  have htree := hu.tree ht
  obtain ⟨hran, hin, hcut, hent⟩ := id hd
  have hoff := hd.sameOff
  have hcp := hd.copies (by rw [hg]; exact ht.geo)
  have hlink := hent 0 (by rw [hg]; exact ht.geo.fats_pos)
  rw [hg] at hin hcut hoff hcp hlink
  have hgrow := h.toKept.grow ht hr₀ hd₀ hcs hr hfree hmark hzero hoff hlink
  have htown : Owned f₀.toGeo f₀.disk t := ⟨r₀, _, hr₀, hcs, by simp⟩
  have htn : ∀ x ∈ ncs, x ≠ t := fun x hx he => h.free x hx (he ▸ htown)
  have hr₁ : Ref f₀.toGeo f.disk r₀ := (hu.ref_iff ht).mpr hr₀
  have hview := (hu.view ht).trans (hgrow.view htree) (noDirs_empty _ _)
  obtain ⟨l₂, hl₂⟩ := slots_head ht.geo nc
  have hslots : slots f₀.toGeo (l ++ [t, nc])
      = slots f₀.toGeo (l ++ [t]) ++ (clusLba nc f₀.toGeo, 0) :: l₂ := by
    rw [Grow.slots_grown, hl₂]
  have hz : ent f'.disk (clusLba nc f₀.toGeo, 0) 0 = 0 :=
    hgrow.new_zero htree (by rw [hl₂]; simp)
  refine ⟨h.ran.trans hran, fun w hw => ?_, ?_, fun hc => hcp (h.copies hc),
    fun hne => (h.chain hne).sameOff ht.geo hoff htn, fun x hx ho => ?_, ?_,
    (hgrow.ref_iff htree).mpr hr₁, (hgrow.isDir_eq htree hr₁).trans ((hu.isDir_eq hr₀).trans hd₀),
    ⟨l ++ [t, nc], _, l₂, ?_, hslots, fun a ha => ?_⟩,
    fun hs => absurd hz (shown_ne_zero hs), fun sl hs => absurd (hview.holding hr₀ hs) (hno sl),
    fun hs => ?_, hsec⟩
  · rcases List.mem_append.mp hw with hw | hw
    · exact h.inside w hw
    · exact hin w hw
  · refine (h.cuts.imp fun _ hd => Kept.old ht hd).append ?_
    have hdisk : f.disk = ws.foldl Disk.put f₀.disk := h.ran.disk
    rw [← hdisk]
    refine hcut.imp fun d hd => ?_
    -- at each cut copy 0 either has the old link or the new one
    rcases hd.2 with he | he
    · exact (Kept.old ht h.sameOff).frame (htree.untouched_copy hd.1 he)
    · have hgd := h.toKept.grow ht hr₀ hd₀ hcs hr hfree hmark hzero hd.1 he
      exact ⟨hgd.tree htree, (hu.view ht).trans (hgd.view htree) (noDirs_empty _ _)⟩
  · rcases hgrow.owned htree ho with ho | rfl
    · exact h.free x hx ((hu.owned_iff ht).mp ho)
    · exact hnc hx
  · by_cases hne : ncs = []
    · have hh := h.holds
      rw [hne] at hh ⊢
      cases buf with
      | nil => exact trivial
      | cons b bs => exact hh.elim
    · exact h.holds.congr hoff.drive (posData_sameOff ht.geo hoff (h.chain hne).2 (by simp))
  · rw [hgrow.first_eq htree hr₁]
    exact hgrow.chain_grown htree
  · have hsec := (mem_slots.mp ha).1
    have hdata : f'.disk.data a.1 = f₀.disk.data a.1 :=
      (hgrow.sector_eq htree hcs.2 _ hsec).trans (hu.data r₀ _ hr₀ hcs _ hsec)
    unfold ent
    rw [hdata]
    exact hbef a ha
  · have hs' := hview.ref (noDirs_empty _ _) hs (by simp)
    obtain ⟨-, -, -, -, -, -, hsh⟩ := hs'.owned_slot
    exact absurd hz (shown_ne_zero hsh)

/-- **`dir_slot` in a full directory**: no room and the chain untouched, or ready. -/
theorem growDir_spec (h : Built f₀ f ws ncs buf)
    (hbef : ∀ a ∈ slots f₀.toGeo (l ++ [t]), ent f₀.disk a 0 ≠ 0)
    (hno : ∀ sl, ¬ Holding f₀.toGeo f₀.disk r₀ name83 sl) :
    ∃ res f' vs, growDir t f = (res, f') ∧ (res = none ∧ Built f₀ f' vs ncs buf ∨
      ∃ sl₀, res = some sl₀ ∧ Ready f₀ f' vs r₀ name83 ncs buf sl₀) := by
  unfold growDir
  rcases h.toKept.alloc ht with ⟨s, hs⟩ | ⟨nc, f₁, vs, hrun, hr, hfree, hz, hd, hk₁⟩
  · rw [hs]
    exact ⟨none, _, ws, rfl, Or.inl ⟨rfl, h.toKept.sec s, h.chain, h.free, h.holds⟩⟩
  · have hnc0 : nc ≠ 0 := by have := hr.1; omega
    have hnc : nc ∉ ncs := fun hm => (h.chain (List.ne_nil_of_mem hm)).entry_ne hm hz
    have hncs : ∀ x ∈ ncs, x ≠ nc := fun x hx he => hnc (he ▸ hx)
    have hg : f.toGeo = f₀.toGeo := h.ran.geo
    have hg₁ : f₁.toGeo = f₀.toGeo := hk₁.ran.geo
    have hoff₁ := hd.sameOff
    have hmark := hd.entry 0 (by rw [hg]; exact ht.geo.fats_pos)
    rw [hg] at hoff₁ hmark
    have hb₁ : Built f₀ f₁ (ws ++ vs) ncs buf := h.other ht hk₁ hoff₁ hncs (by simp)
    obtain ⟨ok, f₂, us, hzrun, hzran, hzpos, hzok⟩ :=
      zeroClus_spec f₀.secPerClus (clusLba nc f₀.toGeo) f₁
    have hrd : Readable f₁.disk := ht.readable.congr hk₁.sameOff.drive
    obtain ⟨hk₂, hoff₂⟩ := hk₁.clus ht hzran hr hzpos hfree
    have hb₂ : Built f₀ f₂ (ws ++ vs ++ us) ncs buf := hb₁.other ht hk₂ hoff₂ (by simp) hncs
    have hzrun' : zeroClus f₁.secPerClus (clusLba nc f₁.toGeo) f₁ = (ok, f₂) := by
      rw [hg₁]
      exact hzrun
    rw [hrun]
    dsimp only
    rw [if_neg hnc0, hzrun']
    cases ok with
    | false => exact ⟨none, f₂, _, rfl, Or.inl ⟨rfl, hb₂⟩⟩
    | true =>
      dsimp only
      have hg₂ : f₂.toGeo = f₀.toGeo := hk₂.ran.geo
      have hmark₂ : fatEntry f₀.toGeo f₂.disk 0 nc = lastMark := by
        rw [hoff₂.entry ht.geo ht.geo.fats_pos hr.2 (by simp)]
        exact hmark
      have hzero : ∀ s, PosData f₀.toGeo nc s → f₂.disk.drive.Works s ∧
        ∀ i, f₂.disk.data s i = 0 := by
        intro s hs
        obtain ⟨h1, h2⟩ := hzok rfl s hs.1 hs.2
        exact ⟨by rw [hoff₂.drive]; exact ⟨hrd s h1, h1⟩, h2⟩
      have hv : nc < 2 ^ 32 := by
        have hlt := hr.lt_eoc ht.geo
        unfold eoc at hlt
        omega
      obtain ⟨f₃, ts, hset, hd₃⟩ := fatSet_spec (c := t) (v := nc) (f := f₂)
        (by rw [hg₂]; exact ht.geo) (hk₂.fatsOn ht.fatsOn)
        (by rw [hg₂]; exact hcs.2 t (by simp)) hv
      have hlba : clusLba nc f₃.toGeo = clusLba nc f₀.toGeo := by rw [hd₃.ran.geo, hg₂]
      have htot : f₃.disk.drive.Works (clusLba nc f₀.toGeo) := by
        rw [hd₃.sameOff.drive]
        exact (hzero _ ⟨Nat.le_refl _, Nat.lt_add_of_pos_right ht.geo.spc_pos⟩).1
      rw [hset]
      dsimp only
      rw [hlba, ideRead_works htot.1]
      dsimp only
      rw [hlba]
      have hd₃' : SetDone f₂ t nc { f₃ with sec := f₃.disk.data (clusLba nc f₀.toGeo) } ts :=
        ⟨by simpa using hd₃.ran.trans (Ran.sec f₃ _), hd₃.inside, hd₃.cuts, hd₃.entry⟩
      exact ⟨_, _, _, rfl, Or.inr ⟨_, rfl, hb₂.ready_grown ht hr₀ hd₀ hcs hr hfree hnc hmark₂ hzero
        hbef hno hd₃' rfl⟩⟩

end Grow

/-! ## `dir_slot` and the rest of `fat_write` -/

theorem slotBody_ok {d : Disk} {sl : Slot} :
    atSlot slotBody d () sl = .ok () → ent d sl 0 ≠ 0 ∧ ent d sl 0 ≠ 0xE5 := by
  intro h
  unfold atSlot slotBody at h
  split at h
  next => exact absurd h (by simp)
  next hn => exact not_or.mp hn

theorem slotBody_error {d : Disk} {sl : Slot} {b : Unit} {r : Option (Nat × Nat)} :
    atSlot slotBody d b sl = .error r → r = some sl ∧ ¬ Shown (ent d sl) := by
  intro h
  unfold atSlot slotBody at h
  split at h
  next hz =>
    refine ⟨(Except.error.inj h).symm, ?_⟩
    intro h
    obtain ⟨nm, hn⟩ := h
    have hl := live_of_entryName hn
    exact hz.elim hl.1 hl.2.1
  next => exact absurd h (by simp)

section Rest

variable {f₀ : Vol} {r₀ : Option Slot} {name83 base ext : Str} (ht : Tree f₀.toGeo f₀.disk)
  (hr₀ : Ref f₀.toGeo f₀.disk r₀) (hd₀ : isDir f₀.disk r₀ = true) {fuel : Nat}
  (hfuel : f₀.fatSz * 128 ≤ fuel)

include ht hr₀ hd₀ hfuel

/-- **`dir_slot`** for a name that does not exist. -/
theorem dirSlot_spec {f : Vol} {ws : List (Nat × Sector)} {ncs : List Nat} {buf : Str}
    (h : Built f₀ f ws ncs buf) (hno : ∀ sl, ¬ Holding f₀.toGeo f₀.disk r₀ name83 sl) :
    ∃ res f' vs, dirSlot fuel (first f₀.toGeo f₀.disk r₀) f = some (res, f') ∧
      (res = none ∧ Built f₀ f' vs ncs buf ∨
        ∃ sl₀, res = some sl₀ ∧ Ready f₀ f' vs r₀ name83 ncs buf sl₀) := by
  have hg : f.toGeo = f₀.toGeo := h.ran.geo
  have hu := Kept.untouched ht h.sameOff
  have htree := hu.tree ht
  have hr₁ : Ref f₀.toGeo f.disk r₀ := (hu.ref_iff ht).mpr hr₀
  have hd₁ : isDir f.disk r₀ = true := (hu.isDir_eq hr₀).trans hd₀
  obtain ⟨cs, hcs⟩ := ht.dirChain hr₀ hd₀
  have hcs₁ := (hu.chain_iff ht hr₀).mpr hcs
  have hent : ∀ a ∈ slots f₀.toGeo cs, ent f.disk a = ent f₀.disk a := fun a ha => by
    unfold ent
    rw [hu.data r₀ cs hr₀ hcs _ (mem_slots.mp ha).1]
  have hfirst : first f.toGeo f.disk r₀ = first f₀.toGeo f₀.disk r₀ := by
    rw [hg, hu.first_eq hr₀]
  have hslots : slots f.toGeo cs = slots f₀.toGeo cs := by rw [hg]
  have hfuel' : f.fatSz * 128 ≤ fuel := by rw [hg]; exact hfuel
  rw [← hg] at htree hr₁ hcs₁
  obtain ⟨res, f', hrun, hfold, ⟨s, rfl⟩, hstop⟩ := htree.scan none slotBody hr₁ hd₁ hcs₁
    hfuel' 0 ()
  rw [hfirst] at hrun
  rw [hslots] at hfold hstop
  unfold dirSlot
  rw [hrun]
  rcases foldlM_first (atSlot slotBody f.disk) (slots f₀.toGeo cs) with
    ⟨hok, hall⟩ | ⟨l₁, sl, l₂, r, hsl, hbef, hx, herr⟩
  · -- no free slot: the directory grows behind its last cluster
    rw [hok] at hfold
    subst hfold
    obtain ⟨l, t, rfl⟩ : ∃ l t, cs = l ++ [t] := by
      have hne : cs ≠ [] := by
        intro he
        subst he
        have hin := ht.dirIn r₀ hr₀ hd₀
        exact absurd hcs.1 (Nat.not_le.mpr (hin.lt_eoc ht.geo))
      exact ⟨cs.dropLast, cs.getLast hne, (List.dropLast_append_getLast hne).symm⟩
    have ht0 : t ≠ 0 := by have := (hcs.2 t (by simp)).1; omega
    have hlast : (l ++ [t]).getLastD 0 = t := by simp
    have hz : ∀ a ∈ slots f₀.toGeo (l ++ [t]), ent f₀.disk a 0 ≠ 0 := fun a ha => by
      rw [← hent a ha]
      exact (slotBody_ok (hall a ha)).1
    have hb : Built f₀ { f with sec := s } ws ncs buf :=
      ⟨h.toKept.sec s, h.chain, h.free, h.holds⟩
    obtain ⟨res, f', vs, hgrow, hres⟩ := growDir_spec ht hr₀ hd₀ hcs hb hz hno
    refine ⟨res, f', vs, ?_, hres⟩
    simp only [scanEnd, hlast, if_neg ht0, hgrow]
  · -- the first slot that is free
    rw [herr] at hfold
    subst hfold
    obtain ⟨rfl, hsh⟩ := slotBody_error hx
    obtain ⟨sl', -, hsec, b, hb⟩ := hstop _ rfl
    obtain rfl : sl = sl' := by
      have := (slotBody_error hb).1
      exact Option.some.inj this
    have hmem : sl ∈ slots f₀.toGeo cs := by rw [hsl]; simp
    rw [hent sl hmem] at hsh
    refine ⟨some sl, _, ws, rfl, Or.inr ⟨sl, rfl, ?_⟩⟩
    have hb : Built f₀ { f with sec := s } ws ncs buf :=
      ⟨h.toKept.sec s, h.chain, h.free, h.holds⟩
    refine hb.ready ht hr₀ hd₀ hcs hsl (fun a ha => ?_) (fun hs => absurd hs hsh)
      (fun a ha => absurd ha (hno a)) (fun hs => ?_) hsec
    · rw [← hent a (by rw [hsl]; simp [ha])]
      exact (slotBody_ok (hbef a ha)).1
    · obtain ⟨-, -, -, -, -, -, hs⟩ := hs.owned_slot
      exact absurd hs hsh

variable (hp : ValidParts base ext) (hname : name83 = pad 8 base ++ pad 3 ext) (h5 : 0xE5 ∉ base)

include hp hname h5

/-- **`fat_write` from the lookup on**, at every cut and at its end. -/
theorem storeFile_spec (buf : Str) {found : Option Found}
    (hfound : found = none ∧ (∀ sl, ¬ Holding f₀.toGeo f₀.disk r₀ name83 sl) ∨
      ∃ fd sl, found = some fd ∧ Holding f₀.toGeo f₀.disk r₀ name83 sl ∧
        isDir f₀.disk (some sl) = false ∧ fd.lba = sl.1 ∧ fd.off = sl.2 ∧
        fd.clus = entClus (ent f₀.disk sl)) :
    ∃ ok f' ws, storeFile fuel (first f₀.toGeo f₀.disk r₀) name83 found buf f₀ = some (ok, f') ∧
      Stored f₀ f' ws r₀ name83 buf ok := by
  have hfree : ∀ {f : Vol} {ws : List (Nat × Sector)} {ncs : List Nat}, Built f₀ f ws ncs buf →
      ∃ ok f' ws, ((freeChain fuel (ncs.headD 0) f).map fun f => (false, f)) = some (ok, f') ∧
        Stored f₀ f' ws r₀ name83 buf ok := by
    intro f ws ncs hb
    obtain ⟨f', vs, hrun, hk⟩ := hb.release ht hfuel
    exact ⟨false, f', _, by rw [hrun]; rfl, hk.stored ht r₀ name83 buf⟩
  obtain ⟨res, f₁, ws, hrun, hres⟩ := writeChain_spec ht hfuel fuel buf [] [] f₀ [] (Built.nil f₀)
    (by simpa using hfuel) (by simp)
  have hrun' : writeChain fuel fuel buf 0 0 f₀ = some (res, f₁) := hrun
  unfold storeFile
  rw [hrun']
  rcases hres with ⟨rfl, hk⟩ | ⟨ncs, rfl, hb⟩
  · exact ⟨false, f₁, ws, rfl, hk.stored ht r₀ name83 buf⟩
  · rw [List.nil_append] at hb
    rcases hfound with ⟨rfl, hno⟩ | ⟨fd, sl, rfl, hhold, hfile, hlba, hoff, hclus⟩
    · obtain ⟨res, f₂, vs, hslot, hres⟩ := dirSlot_spec ht hr₀ hd₀ hfuel hb hno
      simp only [hslot]
      rcases hres with ⟨rfl, hb₂⟩ | ⟨sl₀, rfl, hready⟩
      · exact hfree hb₂
      · obtain ⟨f', us, hsw, hst⟩ := hready.switch hp hname h5 hfuel none (by simp)
        exact ⟨true, f', us, hsw, hst⟩
    · -- overwrite in place: nothing before the slot is a terminator, or it would hide it
      obtain ⟨hc, hraw⟩ := id hhold
      obtain ⟨-, cs, hcs, hmem, hsh⟩ := id hc
      have hlt : f₁.disk.drive.Works sl.1 := by
        rw [hb.sameOff.drive]
        exact ht.onDisk r₀ cs hr₀ hd₀ hcs _ (mem_slots.mp hmem).1
      obtain ⟨l₁, l₂, hsl⟩ := List.append_of_mem hmem
      have hclean := ht.clean r₀ cs hr₀ hd₀ hcs
      rw [hsl, List.pairwise_append] at hclean
      have hb' : Built f₀ { f₁ with sec := f₁.disk.data sl.1 } ws ncs buf :=
        ⟨hb.toKept.sec _, hb.chain, hb.free, hb.holds⟩
      have hready : Ready f₀ { f₁ with sec := f₁.disk.data sl.1 } ws r₀ name83 ncs buf sl :=
        hb'.ready ht hr₀ hd₀ hcs hsl
          (fun a ha h0 => shown_ne_zero hsh (hclean.2.2 a ha sl (by simp) h0))
          (fun _ => hfile) (fun a ha => ht.uniq r₀ a sl hr₀ ha.1 hc (ha.2.trans hraw.symm))
          (fun _ => ⟨hhold, hfile⟩) rfl
      obtain ⟨f', us, hsw, hst⟩ := hready.switch hp hname h5 hfuel (some fd)
        (fun fd' hfd => by cases hfd; exact ⟨Ref.entry hr₀ hc, hclus⟩)
      simp only [hlba, hoff, ideRead_works hlt.1]
      exact ⟨true, f', us, hsw, hst⟩

end Rest

end InaneOS.Fat
