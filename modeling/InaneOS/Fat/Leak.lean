import InaneOS.Fat.Failing

/-!
# Clusters that are lost

A `fat_write` that returns -1 has given back what it took, with one exception. While it
runs, every cluster in use is one of the new chain, was in use before, or is under a
reference (`Accounted`), and releasing the chain leaves the last two kinds. But when
`dir_slot` has taken a cluster for the directory and cannot clear it, it returns before
the cluster is linked, and nothing links or releases it afterwards (`Loose`).

Which cluster that would be is known beforehand (`Placed`, `nextFree`), so the calls
that lose one are known too (`Leaks`). The drive may fail at any data sector, for
reading or for writing; the tree is that of the healed disk.
-/

namespace InaneOS.Fat

open InaneOS.Lib

/-- From `f` to `f'` no cluster is lost: what is in use afterwards was in use before, or a chain of
the tree goes through it. -/
def NoLeak (f f' : Vol) : Prop :=
  ∀ c, InRange f.toGeo c → fatEntry f.toGeo f'.disk 0 c ≠ 0 →
    fatEntry f.toGeo f.disk 0 c ≠ 0 ∨ Owned f.toGeo f'.disk c

theorem owned_heal {g : Geo} {d : Disk} {c : Nat} : Owned g d.heal c ↔ Owned g d c := by
  constructor
  · intro h
    obtain ⟨r, cs, hr, hcs, hc⟩ := h
    exact ⟨r, cs, ref_heal.mp hr, hcs, hc⟩
  · intro h
    obtain ⟨r, cs, hr, hcs, hc⟩ := h
    exact ⟨r, cs, ref_heal.mpr hr, hcs, hc⟩

/-! ## What is in use while the call runs -/

/-- Every cluster in use is one of the new chain `ncs`, was in use in `f₀`, or is under a
reference. -/
structure Accounted (f₀ f : Vol) (ncs : List Nat) : Prop where
  geo : f.toGeo = f₀.toGeo
  fatsOn : FatsOn f₀.toGeo f.disk
  tree : Tree f₀.toGeo f.disk.heal
  chain : ncs ≠ [] → ClusChain f₀.toGeo f.disk (ncs.headD 0) ncs
  free : ∀ c ∈ ncs, ¬ Owned f₀.toGeo f.disk c
  used : ∀ c, InRange f₀.toGeo c → c ∉ ncs → fatEntry f₀.toGeo f.disk 0 c ≠ 0 →
    fatEntry f₀.toGeo f₀.disk 0 c ≠ 0 ∨ Owned f₀.toGeo f.disk c

/-- The cluster `nc` was taken besides the new chain `ncs` and is not linked. -/
structure Loose (f₀ f : Vol) (ncs : List Nat) (nc : Nat) : Prop where
  geo : f.toGeo = f₀.toGeo
  off : SameOff f₀.toGeo (· ∈ ncs ++ [nc]) (· ∈ ncs ++ [nc]) f₀.disk f.disk
  zero : ∀ c ∈ ncs ++ [nc], Zero f₀ c
  chain : ncs ≠ [] → ClusChain f₀.toGeo f.disk (ncs.headD 0) ncs
  inRange : InRange f₀.toGeo nc
  marked : fatEntry f₀.toGeo f.disk 0 nc = lastMark
  fresh : nc ∉ ncs

section Release

variable {f₀ f : Vol} {ncs : List Nat} {fuel : Nat} (hfuel : f₀.fatSz * 128 ≤ fuel)

include hfuel

/-- Releasing the new chain leaves no cluster unaccounted for. -/
theorem Accounted.release (h : Accounted f₀ f ncs) :
    ∃ f', freeChain fuel (ncs.headD 0) f = some f' ∧ NoLeak f₀ f' := by
  have ht := h.tree
  have hg := ht.geo
  obtain ⟨f', ws, hrun, -, hoff, hent⟩ := freeNew (f := f) (by rw [h.geo]; exact hg)
    (by rw [h.geo]; exact h.fatsOn) (by rw [h.geo]; exact h.chain)
    (show f.toGeo.fatSz * 128 ≤ fuel by rw [h.geo]; exact hfuel)
  rw [h.geo] at hoff hent
  have hu : Untouched f₀.toGeo f.disk.heal f'.disk.heal :=
    ht.untouched hoff.heal (fun c hc hmem => h.free c hmem (owned_heal.mp hc)) (by simp)
  refine ⟨f', hrun, fun c hc hz => ?_⟩
  by_cases hmem : c ∈ ncs
  · exact absurd (hent c hmem 0 hg.fats_pos) hz
  · rw [hoff.entry hg hg.fats_pos hc.2 fun _ => hmem] at hz
    refine (h.used c hc hmem hz).imp_right fun hown => ?_
    exact owned_heal.mp ((hu.owned_iff ht).mpr (owned_heal.mpr hown))

/-- A lost cluster stays lost. -/
theorem Loose.release {nc : Nat} (ht : Tree f₀.toGeo f₀.disk.heal) (ho : FatsOn f₀.toGeo f₀.disk)
    (h : Loose f₀ f ncs nc) : ∃ f', freeChain fuel (ncs.headD 0) f = some f' ∧ ¬ NoLeak f₀ f' := by
  have hg := ht.geo
  obtain ⟨f', ws, hrun, -, hoff, -⟩ := freeNew (f := f) (by rw [h.geo]; exact hg)
    (by rw [h.geo]; exact ho.congr h.off.drive) (by rw [h.geo]; exact h.chain)
    (show f.toGeo.fatSz * 128 ≤ fuel by rw [h.geo]; exact hfuel)
  rw [h.geo] at hoff
  have hfree : ∀ c, Owned f₀.toGeo f₀.disk.heal c → c ∉ ncs ++ [nc] := by
    intro c h hmem
    obtain ⟨r, cs, -, hcs, hc⟩ := h
    exact hcs.entry_ne hc (h.zero c hmem)
  have hall := h.off.trans (hoff.mono (fun _ _ hc => List.mem_append_left _ hc)
    fun _ _ hc => hc.elim)
  have hu := ht.untouched hall.heal hfree hfree
  have hnc : nc ∈ ncs ++ [nc] := by simp
  refine ⟨f', hrun, fun hno => ?_⟩
  have hmark : fatEntry f₀.toGeo f'.disk 0 nc ≠ 0 := by
    rw [hoff.entry hg hg.fats_pos h.inRange.2 fun _ => h.fresh, h.marked]
    decide
  rcases hno nc h.inRange hmark with hold | hown
  · exact hold (h.zero nc hnc)
  · exact hfree nc ((hu.owned_iff ht).mp (owned_heal.mpr hown)) hnc

end Release

/-! ## The directory grows -/

section Growing

variable {f₀ f f' : Vol} {ncs : List Nat} (ht : Tree f₀.toGeo f₀.disk.heal)
  (ho : FatsOn f₀.toGeo f₀.disk)

include ht

theorem Lent.untouched_heal (h : Lent f₀ f ncs) : Untouched f₀.toGeo f₀.disk.heal f.disk.heal := by
  have hfree : ∀ c, Owned f₀.toGeo f₀.disk.heal c → c ∉ ncs := by
    intro c h hmem
    obtain ⟨r, cs, -, hcs, hc⟩ := h
    exact hcs.entry_ne hc (h.zero c hmem)
  exact ht.untouched h.off.heal hfree hfree

include ho in
/-- The chain under construction is all that is new. -/
theorem Lent.accounted (h : Lent f₀ f ncs) : Accounted f₀ f ncs := by
  have hu := h.untouched_heal ht
  refine ⟨h.geo, ho.congr h.off.drive, hu.tree ht, h.chain, fun c hc hown => ?_,
    fun c hc hmem hz => ?_⟩
  · obtain ⟨r, cs, -, hcs, hcc⟩ := (hu.owned_iff ht).mp (owned_heal.mpr hown)
    exact hcs.entry_ne hcc (h.zero c hc)
  · exact Or.inl fun h0 => hz ((h.entry_iff ht.geo hc).mpr ⟨h0, hmem⟩)

/-- `alloc_clus` for the directory. -/
theorem Lent.take (h : Lent f₀ f ncs) {nc : Nat} {ws : List (Nat × Sector)}
    (hr : InRange f₀.toGeo nc)
    (hz : fatEntry f₀.toGeo f.disk 0 nc = 0) (hd : SetDone f nc lastMark f' ws) :
    Loose f₀ f' ncs nc := by
  have hg := ht.geo
  have hgeo := h.geo
  obtain ⟨h0, hnc⟩ := (h.entry_iff hg hr).mp hz
  have hoff := hd.sameOff
  have hmark := hd.entry 0 (by rw [hgeo]; exact hg.fats_pos)
  rw [hgeo] at hoff hmark
  refine ⟨hd.ran.geo.trans hgeo, ?_, fun c hc => ?_, fun hne => ?_, hr, hmark, hnc⟩
  · exact (h.off.mono (fun _ _ hc => List.mem_append_left _ hc) fun _ _ hc =>
      List.mem_append_left _ hc).trans
      (hoff.mono (fun _ _ hc => by simp [hc]) fun _ _ hc => hc.elim)
  · rcases List.mem_append.mp hc with hc | hc
    · exact h.zero c hc
    · rw [List.mem_singleton.mp hc]
      exact h0
  · exact (h.chain hne).sameOff hg hoff fun x hx he => hnc (he ▸ hx)

namespace Loose

variable {nc : Nat} (h : Loose f₀ f ncs nc)

include h

/-- Writes into the sectors of the cluster. -/
theorem data {ws : List (Nat × Sector)} (hran : Ran f f' ws)
    (hpos : ∀ w ∈ ws, PosData f₀.toGeo nc w.1) :
    Loose f₀ f' ncs nc := by
  have hoff : SameOff f₀.toGeo (fun _ => False) (· = nc) f.disk f'.disk := by
    rw [hran.disk]
    exact (@always_posData _ f.disk _ h.inRange _ _ hpos (SameOff.refl ..)).final
  refine ⟨hran.geo.trans h.geo, ?_, h.zero, fun hne => ?_, h.inRange, ?_, h.fresh⟩
  · exact h.off.trans (hoff.mono (fun _ _ hc => hc.elim) fun _ _ hc => by simp [hc])
  · exact (h.chain hne).sameOff ht.geo hoff (by simp)
  · rw [hoff.entry ht.geo ht.geo.fats_pos h.inRange.2 fun _ hc => hc]
    exact h.marked

include ho

/-- The cleared cluster is linked behind the last one of a directory. -/
theorem link {r₀ : Option Slot} {l : List Nat} {t : Nat} {ws : List (Nat × Sector)}
    (hr₀ : Ref f₀.toGeo f₀.disk.heal r₀) (hd₀ : isDir f₀.disk r₀ = true)
    (hcs : ClusChain f₀.toGeo f₀.disk (first f₀.toGeo f₀.disk r₀) (l ++ [t]))
    (hzero : ∀ s, PosData f₀.toGeo nc s → ∀ i, f.disk.data s i = 0) (hd : SetDone f t nc f' ws) :
    Accounted f₀ f' ncs := by
  have hg := ht.geo
  have hfree : ∀ c, Owned f₀.toGeo f₀.disk.heal c → c ∉ ncs ++ [nc] := by
    intro c h hmem
    obtain ⟨r, cs, -, hcs, hc⟩ := h
    exact hcs.entry_ne hc (h.zero c hmem)
  have hu := ht.untouched h.off.heal hfree hfree
  have htree := hu.tree ht
  have hr := (hu.ref_iff ht).mpr hr₀
  have hoff := hd.sameOff
  have hent := hd.entry 0 (by rw [h.geo]; exact hg.fats_pos)
  rw [h.geo] at hoff hent
  have hgrow : Grow f₀.toGeo f.disk.heal f'.disk.heal r₀ l t nc :=
    { ref := hr
      dir := (hu.isDir_eq hr₀).trans hd₀
      chain := by
        rw [hu.first_eq hr₀]
        exact hu.chains r₀ _ hr₀ hcs
      free := fun hown => hfree nc ((hu.owned_iff ht).mp hown) (by simp)
      inRange := h.inRange
      mark := by
        rw [link_of_entry (d := f.disk.heal) h.marked (by decide)]
        decide
      zero := fun s hs => ⟨heal_works s, hzero s hs⟩
      off := hoff.heal
      linked := hent }
  have htold : Owned f₀.toGeo f₀.disk.heal t := ⟨r₀, _, hr₀, hcs, by simp⟩
  have hnew : Owned f₀.toGeo f'.disk nc := by
    refine owned_heal.mp ⟨r₀, l ++ [t, nc], (hgrow.ref_iff htree).mpr hr, ?_, by simp⟩
    rw [hgrow.first_eq htree hr]
    exact hgrow.chain_grown htree
  refine ⟨hd.ran.geo.trans h.geo, ho.congr (hoff.drive.trans h.off.drive), hgrow.tree htree,
    fun hne => ?_,
    fun c hc hown => ?_, fun c hc hmem hz => ?_⟩
  · refine (h.chain hne).sameOff hg hoff fun x hx he => ?_
    exact hfree t htold (he ▸ List.mem_append_left _ hx)
  · rcases hgrow.owned htree (owned_heal.mpr hown) with hown | rfl
    · exact hfree c ((hu.owned_iff ht).mp hown) (List.mem_append_left _ hc)
    · exact h.fresh hc
  · by_cases hcn : c = nc
    · rw [hcn]
      exact Or.inr hnew
    · left
      by_cases hct : c = t
      · rw [hct]
        exact hcs.entry_ne (by simp)
      · have hnot : c ∉ ncs ++ [nc] := by simp [hmem, hcn]
        rw [hoff.entry hg hg.fats_pos hc.2 fun _ => hct, h.off.entry hg hg.fats_pos
          hc.2 fun _ => hnot] at hz
        exact hz

end Loose

end Growing

/-! ## `dir_slot` -/

/-- The cluster that `alloc_clus` takes behind `cs` has a sector that cannot be written. -/
def NextFails (g : Geo) (d : Disk) (cs : List Nat) (hint : Nat) : Prop :=
  ∃ nc l, nextFree g d cs hint = some nc ∧ PosData g nc l ∧ d.drive.writes l = false

/-- The directory `cs` can be read to its end, and has no free slot. -/
structure Exhausted (g : Geo) (d : Disk) (cs : List Nat) : Prop where
  reads : ∀ l ∈ secsOf g cs, d.drive.reads l = true
  full : ∀ sl ∈ slots g cs, ent d sl 0 ≠ 0x00 ∧ ent d sl 0 ≠ 0xE5

section DirSlot

variable {f₀ f : Vol} {ncs : List Nat} (ht : Tree f₀.toGeo f₀.disk.heal)
  (ho : FatsOn f₀.toGeo f₀.disk) {r₀ : Option Slot} (hr₀ : Ref f₀.toGeo f₀.disk.heal r₀)
  (hd₀ : isDir f₀.disk r₀ = true) (h : Lent f₀ f ncs)

include ht ho hr₀ hd₀ h

/-- **`dir_slot` in a full directory** loses a cluster when it cannot clear it, and never
otherwise. -/
theorem growDir_failing {l : List Nat} {t : Nat}
    (hcs : ClusChain f₀.toGeo f₀.disk (first f₀.toGeo f₀.disk r₀) (l ++ [t])) :
    ∃ res f', growDir t f = (res, f') ∧
      (¬ NextFails f₀.toGeo f₀.disk ncs f.allocHint ∧ Accounted f₀ f' ncs ∨
        res = none ∧ NextFails f₀.toGeo f₀.disk ncs f.allocHint ∧ ∃ nc, Loose f₀ f' ncs nc) := by
  have hg := ht.geo
  have hgeo := h.geo
  have hnext := h.next hg f.allocHint
  unfold growDir
  rcases allocClus_next (f := f) (by rw [hgeo]; exact hg) (by rw [hgeo]; exact ho.congr h.off.drive)
    with
    ⟨hnone, s, hs⟩ | ⟨nc, f₁, ws, hnc, hal, hr, hz, hd, -⟩
  · rw [hgeo, hnext] at hnone
    rw [hs]
    refine ⟨none, _, rfl, Or.inl ⟨?_, (h.sec s).accounted ht ho⟩⟩
    intro h
    obtain ⟨nc, -, hnc, -⟩ := h
    exact absurd (hnone.symm.trans hnc) (by simp)
  · rw [hgeo] at hr hz
    rw [hgeo, hnext] at hnc
    have hnc0 : nc ≠ 0 := by have := hr.1; omega
    have h₁ : Loose f₀ f₁ ncs nc := h.take ht hr hz hd
    have hgeo₁ := h₁.geo
    have hzok := zeroClus_ok f₀.secPerClus (clusLba nc f₀.toGeo) f₁
    obtain ⟨ok, f₂, us, hzrun, hran, hpos, hzero⟩ :=
      zeroClus_spec f₀.secPerClus (clusLba nc f₀.toGeo) f₁
    have h₂ : Loose f₀ f₂ ncs nc := h₁.data ht hran hpos
    rw [hzrun, h₁.off.drive] at hzok
    rw [hal]
    dsimp only
    rw [if_neg hnc0, hgeo₁, hzrun]
    cases ok with
    | false =>
      refine ⟨none, f₂, rfl, Or.inr ⟨rfl, ?_, nc, h₂⟩⟩
      -- some sector could not be written, or the cluster would be clear
      by_contra hno
      refine absurd (hzok.mpr fun s hlo hhi => ?_) (by simp)
      by_contra hw
      exact hno ⟨nc, s, hnc, ⟨hlo, hhi⟩, Bool.eq_false_iff.mpr hw⟩
    | true =>
      have hno : ¬ NextFails f₀.toGeo f₀.disk ncs f.allocHint := by
        intro h
        obtain ⟨nc', s, hnc', hs, hw⟩ := h
        obtain rfl : nc = nc' := Option.some.inj (hnc.symm.trans hnc')
        exact absurd (hw.symm.trans (hzok.mp rfl s hs.1 hs.2)) (by simp)
      have hv : nc < 2 ^ 32 := by
        have hlt := hr.lt_eoc hg
        unfold eoc at hlt
        omega
      obtain ⟨f₃, ts, hset, hd₃⟩ :=
        fatSet_spec (c := t) (v := nc) (f := f₂) (by rw [h₂.geo]; exact hg)
        (by rw [h₂.geo]; exact ho.congr h₂.off.drive) (by rw [h₂.geo]; exact hcs.2 t (by simp)) hv
      have h₃ : Accounted f₀ f₃ ncs :=
        h₂.link ht ho hr₀ hd₀ hcs (fun s hs i => (hzero rfl s hs.1 hs.2).2 i) hd₃
      dsimp only
      rw [hset]
      dsimp only
      cases hrd : f₃.disk.drive.reads (clusLba nc f₃.toGeo) with
      | false =>
        rw [ideRead_fails hrd]
        exact ⟨none, f₃, rfl, Or.inl ⟨hno, h₃⟩⟩
      | true =>
        rw [ideRead_works hrd]
        exact ⟨_, _, rfl, Or.inl ⟨hno, h₃.geo, h₃.fatsOn, h₃.tree, h₃.chain, h₃.free, h₃.used⟩⟩

/-- **`dir_slot`** on a drive that may fail. -/
theorem dirSlot_failing {fuel : Nat} (hfuel : f₀.fatSz * 128 ≤ fuel) {cs : List Nat}
    (hcs : ClusChain f₀.toGeo f₀.disk (first f₀.toGeo f₀.disk r₀) cs) :
    ∃ res f', dirSlot fuel (first f₀.toGeo f₀.disk r₀) f = some (res, f') ∧
      (¬ (Exhausted f₀.toGeo f₀.disk cs ∧ NextFails f₀.toGeo f₀.disk ncs f.allocHint) ∧
          Accounted f₀ f' ncs ∨
        res = none ∧ (Exhausted f₀.toGeo f₀.disk cs ∧ NextFails f₀.toGeo f₀.disk ncs f.allocHint) ∧
          ∃ nc, Loose f₀ f' ncs nc) := by
  have hg := ht.geo
  have hgeo := h.geo
  have hu := h.untouched_heal ht
  have htree : Tree f.toGeo f.disk.heal := by
    rw [hgeo]
    exact hu.tree ht
  have hcsf : ClusChain f.toGeo f.disk (first f₀.toGeo f₀.disk r₀) cs := by
    rw [hgeo]
    exact hu.chains r₀ cs hr₀ hcs
  -- the directory's entries are the old ones
  have hent : ∀ sl ∈ slots f₀.toGeo cs, ent f.disk sl = ent f₀.disk sl := by
    intro sl hsl
    unfold ent
    rw [show f.disk.data sl.1 = f₀.disk.data sl.1 from hu.data r₀ cs hr₀ hcs _ (mem_slots.mp hsl).1]
  unfold dirSlot
  rcases scan_failing htree (by rw [hgeo]; exact ho.congr h.off.drive)
      (show f.toGeo.fatSz * 128 ≤ fuel by rw [hgeo]; exact hfuel) none slotBody hcsf 0 () with
    ⟨s, hrun, l, hl, hrd⟩ | ⟨res, f₁, hrun, ⟨hfold, ⟨s, rfl⟩, -⟩, hread⟩
  · -- a sector of the directory cannot be read
    rw [hgeo] at hl
    rw [h.off.drive] at hrd
    rw [hrun]
    refine ⟨none, _, rfl, Or.inl ⟨fun hex => ?_, (h.sec s).accounted ht ho⟩⟩
    exact absurd (hrd.symm.trans (hex.1.reads l hl)) (by simp)
  · rw [hgeo] at hfold
    rw [hrun]
    rcases foldlM_first (atSlot slotBody f.disk) (slots f₀.toGeo cs) with
      ⟨hok, hall⟩ | ⟨l₁, sl, l₂, r, hsl, -, hx, herr⟩
    · -- no slot is free: the directory grows
      obtain rfl : res = .ok () := hfold.symm.trans hok
      have hfull : ∀ sl ∈ slots f₀.toGeo cs, ent f₀.disk sl 0 ≠ 0x00 ∧ ent f₀.disk sl 0 ≠ 0xE5 := by
        intro sl hsl
        rw [← hent sl hsl]
        exact slotBody_ok (hall sl hsl)
      have hne : cs ≠ [] := by
        intro he
        subst he
        exact absurd hcs.1 (Nat.not_le.mpr ((ht.dirIn r₀ hr₀ hd₀).lt_eoc hg))
      obtain ⟨l, t, rfl⟩ : ∃ l t, cs = l ++ [t] :=
        ⟨cs.dropLast, cs.getLast hne, (List.dropLast_append_getLast hne).symm⟩
      have hlast : (l ++ [t]).getLastD 0 = t := by simp
      have htin : InRange f₀.toGeo t := hcs.2 t (by simp)
      obtain ⟨res, f', hgrow, hcase⟩ := growDir_failing ht ho hr₀ hd₀ (h.sec s) hcs
      dsimp only [scanEnd]
      rw [hlast, if_neg (by have := htin.1; omega), hgrow]
      refine ⟨res, f', rfl, ?_⟩
      rcases hcase with ⟨hno, hacc⟩ | ⟨rfl, hfails, hloose⟩
      · exact Or.inl ⟨fun hex => hno hex.2, hacc⟩
      · refine Or.inr ⟨rfl, ⟨⟨fun l hl => ?_, hfull⟩, hfails⟩, hloose⟩
        rw [← hgeo] at hl
        rw [← h.off.drive]
        exact hread () rfl l hl
    · obtain rfl : res = .error r := hfold.symm.trans herr
      refine ⟨r, _, rfl, Or.inl ⟨fun hex => ?_, (h.sec s).accounted ht ho⟩⟩
      have hmem : sl ∈ slots f₀.toGeo cs := by rw [hsl]; simp
      have hfull := hex.1.full sl hmem
      rw [← hent sl hmem] at hfull
      have hgoes : atSlot slotBody f.disk () sl = .ok () := if_neg (not_or.mpr hfull)
      exact absurd (hx.symm.trans hgoes) (by simp)

end DirSlot

/-! ## The entry is written -/

/-- A write that fails changes nothing. -/
theorem put_failing {g : Geo} {A B : Nat → Prop} {d : Disk} {w : Nat × Sector}
    (h : d.drive.writes w.1 = false) : SameOff g A B d (d.put w) := by
  refine ⟨rfl, fun l i _ _ => ?_⟩
  rw [Disk.put_data, if_neg fun hc => absurd (h.symm.trans hc.2) (by simp)]

theorem Accounted.same {f₀ f f' : Vol} {ncs : List Nat} (h : Accounted f₀ f ncs)
    (hgeo : f'.toGeo = f.toGeo)
    (hoff : SameOff f₀.toGeo (fun _ => False) (fun _ => False) f.disk f'.disk) :
    Accounted f₀ f' ncs := by
  have ht := h.tree
  have hg := ht.geo
  have hu := ht.untouched hoff.heal (by simp) (by simp)
  have hown : ∀ c, Owned f₀.toGeo f'.disk c ↔ Owned f₀.toGeo f.disk c := fun c =>
    owned_heal.symm.trans ((hu.owned_iff ht).trans owned_heal)
  refine ⟨hgeo.trans h.geo, h.fatsOn.congr hoff.drive, hu.tree ht, fun hne => ?_, fun c hc => ?_,
    fun c hc hmem hz => ?_⟩
  · exact (h.chain hne).sameOff hg hoff (by simp)
  · rw [hown c]
    exact h.free c hc
  · rw [hoff.entry hg hg.fats_pos hc.2 fun _ hc => hc] at hz
    rw [hown c]
    exact h.used c hc hmem hz

/-- Writing the entry: it is written and the old chain released, or the new chain is released. -/
theorem Accounted.switch {f₀ f : Vol} {ncs : List Nat} {fuel : Nat} (hfuel : f₀.fatSz * 128 ≤ fuel)
    (h : Accounted f₀ f ncs) {found : Option Found} {lba off : Nat} {name83 : Str} {len : Nat}
    (hold : ∀ fd, found = some fd → fd.clus ≥ 2 → ∃ c cs, InRange f₀.toGeo c ∧
      PosData f₀.toGeo c lba ∧
      ClusChain f₀.toGeo f.disk fd.clus cs) :
    ∃ ok f', switchEntry fuel found lba off name83 (ncs.headD 0) len f = some (ok, f') ∧
      (ok = false → NoLeak f₀ f') := by
  have hg := h.tree.geo
  unfold switchEntry ideWrite
  dsimp only
  cases hw : f.disk.drive.writes lba with
  | false =>
    dsimp only
    generalize fillEntry f.sec off name83 0x20 (ncs.headD 0) (len % 2 ^ 32) = s
    have h' : Accounted f₀ { f with sec := s, disk := f.disk.put (lba, s) } ncs :=
      h.same rfl (put_failing hw)
    obtain ⟨f', hfree, hno⟩ := h'.release hfuel
    rw [hfree]
    exact ⟨false, f', rfl, fun _ => hno⟩
  | true =>
    dsimp only
    cases found with
    | none => exact ⟨true, _, rfl, by simp⟩
    | some fd =>
      dsimp only
      by_cases hge : fd.clus ≥ 2
      · obtain ⟨c, cs, hc, hp, hcs⟩ := hold fd rfl hge
        rw [if_pos hge]
        generalize fillEntry f.sec off name83 0x20 (ncs.headD 0) (len % 2 ^ 32) = s
        have hoff : SameOff f₀.toGeo (fun _ => False) (· = c) f.disk (f.disk.put (lba, s)) :=
          put_sameOff hc hp
        have hcs' := hcs.sameOff hg hoff (by simp)
        obtain ⟨f', ws, hrun, -⟩ := freeChain_spec cs fd.clus fuel
          { f with sec := s, disk := f.disk.put (lba, s) } (show f.toGeo.Ok by rw [h.geo]; exact hg)
          (show FatsOn f.toGeo _ by rw [h.geo]; exact h.fatsOn.congr hoff.drive)
          (show ClusChain f.toGeo _ fd.clus cs by rw [h.geo]; exact hcs')
          (Nat.lt_of_lt_of_le (hcs.length_lt hg) hfuel)
        rw [hrun]
        exact ⟨true, f', rfl, by simp⟩
      · rw [if_neg hge]
        exact ⟨true, _, rfl, by simp⟩

/-! ## `fat_write` from `lookup` on -/

/-- The data has its place, but the directory `cs` is full and the cluster for it cannot be
cleared. -/
def GrowFails (g : Geo) (d : Disk) (cs : List Nat) (len hint : Nat) : Prop :=
  ∃ new hint', Placed g d len [] hint new hint' ∧ Exhausted g d cs ∧ NextFails g d new hint'

theorem Back.noLeak {f₀ f : Vol} (hg : f₀.toGeo.Ok) (h : Back f₀ f) : NoLeak f₀ f := by
  intro c hc hz
  rw [h.off.entry hg hg.fats_pos hc.2 (by simp)] at hz
  exact Or.inl hz

section Store

variable {f₀ : Vol} (hwf : WellFormed f₀.toGeo f₀.disk.heal) (ho : FatsOn f₀.toGeo f₀.disk)
  {fuel : Nat} (hfuel : f₀.fatSz * 128 ≤ fuel) {r₀ : Option Slot} {name83 : Str}

include hwf ho hfuel

/-- **Storing a new file** loses a cluster exactly when the directory cannot grow into it. -/
theorem storeNew_failing {cs : List Nat}
    (hr₀ : Ref f₀.toGeo f₀.disk.heal r₀) (hd₀ : isDir f₀.disk r₀ = true)
    (hcs : ClusChain f₀.toGeo f₀.disk (first f₀.toGeo f₀.disk r₀) cs) (buf : Str) :
    ∃ ok f', storeFile fuel (first f₀.toGeo f₀.disk r₀) name83 none buf f₀ = some (ok, f') ∧
      (ok = false → (NoLeak f₀ f' ↔ ¬ GrowFails f₀.toGeo f₀.disk cs buf.length f₀.allocHint)) := by
  have ht := hwf.tree
  have hg := ht.geo
  unfold storeFile
  obtain ⟨res, f₁, hchain, hcase⟩ :=
    writeChain_outcome hg ho hwf.copies hfuel fuel buf [] f₀ (Lent.nil f₀)
    hfuel
  rw [show writeChain fuel fuel buf 0 0 f₀ = some (res, f₁) from hchain]
  rcases hcase with ⟨rfl, hback, hno⟩ | ⟨new, rfl, h, hplaced⟩
  · refine ⟨false, f₁, rfl, fun _ => iff_of_true (hback.noLeak hg) ?_⟩
    intro h
    obtain ⟨new, hint, hplaced, -⟩ := h
    exact hno new hint hplaced
  · rw [List.nil_append] at h ⊢
    -- where the data lies is fixed, so the condition is about this chain
    have hiff : GrowFails f₀.toGeo f₀.disk cs buf.length f₀.allocHint ↔
        Exhausted f₀.toGeo f₀.disk cs ∧ NextFails f₀.toGeo f₀.disk new f₁.allocHint := by
      constructor
      · intro h
        obtain ⟨new', hint', hplaced', hrest⟩ := h
        obtain ⟨rfl, rfl⟩ := hplaced.unique hplaced'
        exact hrest
      · exact fun hrest => ⟨new, _, hplaced, hrest⟩
    rw [hiff]
    obtain ⟨res, f₂, hslot, hcase⟩ := dirSlot_failing ht ho hr₀ hd₀ h hfuel hcs
    dsimp only
    rw [hslot]
    rcases hcase with ⟨hno, hacc⟩ | ⟨rfl, hfails, nc, hloose⟩
    · cases res with
      | none =>
        obtain ⟨f', hfree, hleak⟩ := hacc.release hfuel
        dsimp only
        rw [hfree]
        exact ⟨false, f', rfl, fun _ => iff_of_true hleak hno⟩
      | some sl =>
        obtain ⟨ok, f', hrun, hleak⟩ :=
          @Accounted.switch _ _ _ _ hfuel hacc none sl.1 sl.2 name83 buf.length
          (by simp)
        exact ⟨ok, f', hrun, fun hok => iff_of_true (hleak hok) hno⟩
    · obtain ⟨f', hfree, hleak⟩ := hloose.release hfuel ht ho
      dsimp only
      rw [hfree]
      exact ⟨false, f', rfl, fun _ => iff_of_false hleak fun h => h hfails⟩

/-- **Replacing a file** never loses a cluster. -/
theorem storeOld_failing {sl : Slot} (hsl : Holding f₀.toGeo f₀.disk.heal r₀ name83 sl)
    (hr₀ : Ref f₀.toGeo f₀.disk.heal r₀) (hfile : isDir f₀.disk (some sl) = false) {fd : Found}
    (hlba : fd.lba = sl.1) (hclus : fd.clus = entClus (ent f₀.disk sl)) (clus : Nat) (buf : Str) :
    ∃ ok f', storeFile fuel clus name83 (some fd) buf f₀ = some (ok, f') ∧
      (ok = false → NoLeak f₀ f') := by
  have ht := hwf.tree
  have hg := ht.geo
  have hsr : Ref f₀.toGeo f₀.disk.heal (some sl) := Ref.entry hr₀ hsl.1
  unfold storeFile
  obtain ⟨res, f₁, hchain, hcase⟩ :=
    writeChain_outcome hg ho hwf.copies hfuel fuel buf [] f₀ (Lent.nil f₀)
    hfuel
  rw [show writeChain fuel fuel buf 0 0 f₀ = some (res, f₁) from hchain]
  rcases hcase with ⟨rfl, hback, -⟩ | ⟨new, rfl, h, -⟩
  · exact ⟨false, f₁, rfl, fun _ => hback.noLeak hg⟩
  · rw [List.nil_append] at h ⊢
    dsimp only
    cases hrd : f₁.disk.drive.reads fd.lba with
    | false =>
      obtain ⟨f', hfree, hleak⟩ := (h.accounted ht ho).release hfuel
      rw [ideRead_fails hrd]
      dsimp only
      rw [hfree]
      exact ⟨false, f', rfl, fun _ => hleak⟩
    | true =>
      rw [ideRead_works hrd]
      refine ((h.sec _).accounted ht ho).switch hfuel fun fd' hfd hge => ?_
      obtain rfl : fd = fd' := Option.some.inj hfd
      obtain ⟨⟨-, cs, hcs, hmem, -⟩, -⟩ := hsl
      obtain ⟨c, hc, hp⟩ := mem_secsOf.mp (mem_slots.mp hmem).1
      rcases ht.fileIn sl hsr hfile with hin | ⟨h0, -⟩
      · obtain ⟨cs', hcs'⟩ := ht.chain (some sl) hsr hin
        refine ⟨c, cs', hcs.2 c hc, by rw [hlba]; exact hp, ?_⟩
        rw [hclus]
        exact (h.untouched_heal ht).chains (some sl) cs' hsr hcs'
      · rw [hclus] at hge
        rw [show entClus (ent f₀.disk sl) = 0 from h0] at hge
        exact absurd hge (by decide)

/-- No live entry of the directory `cs` has the name. -/
def Fresh (g : Geo) (d : Disk) (cs : List Nat) (name83 : Str) : Prop :=
  ∀ sl ∈ slots g cs, Live (ent d sl) → raw11 (ent d sl) ≠ name83

/-- `fat_write` from `lookup` on. -/
theorem storeAt_failing (hr₀ : Ref f₀.toGeo f₀.disk.heal r₀) (hd₀ : isDir f₀.disk r₀ = true)
    {leaf : Str} (hto : to83 leaf = some name83) (buf : Str) :
    ∃ ok f', storeAt fuel (first f₀.toGeo f₀.disk r₀) name83 buf f₀ = some (ok, f') ∧
      (ok = false → (NoLeak f₀ f' ↔ ¬ ∃ cs,
        ClusChain f₀.toGeo f₀.disk (first f₀.toGeo f₀.disk r₀) cs ∧
        Fresh f₀.toGeo f₀.disk cs name83 ∧
          GrowFails f₀.toGeo f₀.disk cs buf.length f₀.allocHint)) := by
  have ht := hwf.tree
  obtain ⟨cs, hcs⟩ := ht.dirChain hr₀ hd₀
  obtain ⟨s, res, hrun, hfound, hmiss⟩ := lookup_sound ht ho hfuel hr₀ hd₀ hcs hto
  unfold storeAt
  rw [hrun]
  cases res with
  | none =>
    obtain ⟨ok, f', hst, hiff⟩ :=
      @storeNew_failing { f₀ with sec := s } hwf ho fuel hfuel r₀ name83 cs hr₀ hd₀
      hcs buf
    refine ⟨ok, f', hst, fun hok => (hiff hok).trans (not_congr ⟨fun hgrow => ?_, ?_⟩)⟩
    · refine ⟨cs, hcs, fun sl hsl hlive hraw => ?_, hgrow⟩
      -- `lookup` has read the whole directory
      obtain ⟨-, -, -, hex, -⟩ := hgrow
      obtain ⟨base, ext, hp, hname, -, -⟩ := to83_spec hto
      have hhold : Holding f₀.toGeo f₀.disk.heal r₀ name83 sl :=
        ⟨⟨hd₀, cs, hcs, hsl, _, entryName_valid hlive hp (hraw.trans hname)⟩, hraw⟩
      exact hmiss hex.reads sl hhold rfl
    · intro h
      obtain ⟨cs', hcs', -, hgrow⟩ := h
      rw [hcs'.unique hcs] at hgrow
      exact hgrow
  | some fd =>
    obtain ⟨sl, hsl, rfl⟩ := hfound fd rfl
    have hold : ¬ ∃ cs, ClusChain f₀.toGeo f₀.disk (first f₀.toGeo f₀.disk r₀) cs ∧
        Fresh f₀.toGeo f₀.disk cs name83 ∧
          GrowFails f₀.toGeo f₀.disk cs buf.length f₀.allocHint := by
      intro h
      obtain ⟨cs', hcs', hfresh, -⟩ := h
      obtain ⟨⟨-, cs'', hcs'', hmem, nm, hn⟩, hraw⟩ := hsl
      rw [ClusChain.unique hcs'' hcs'] at hmem
      exact hfresh sl hmem (live_of_entryName hn) hraw
    by_cases hdir : entIsDir (ent f₀.disk sl) = true
    · dsimp only
      rw [if_pos hdir]
      exact ⟨false, _, rfl, fun _ => iff_of_true (fun c _ hz => Or.inl hz) hold⟩
    · dsimp only
      rw [if_neg hdir]
      obtain ⟨ok, f', hst, hno⟩ :=
        @storeOld_failing { f₀ with sec := s } hwf ho fuel hfuel r₀ name83 sl hsl
        hr₀ (Bool.eq_false_iff.mpr hdir) ⟨sl.1, sl.2, entIsDir (ent f₀.disk sl),
          entClus (ent f₀.disk sl),
          entSize (ent f₀.disk sl)⟩ rfl rfl (first f₀.toGeo f₀.disk r₀) buf
      exact ⟨ok, f', hst, fun hok => iff_of_true (hno hok) hold⟩

end Store

/-! ## `fat_write` -/

/-- `fat_write` gets to a directory that has no entry of this name and no free slot, the data has
its place on the disk, and the cluster that comes next has a sector that cannot be written. -/
def Leaks (fuel : Nat) (f : Vol) (path buf : Str) : Prop :=
  ∃ clus name83 cs, Entered fuel f path clus name83 ∧ ClusChain f.toGeo f.disk clus cs ∧
    Fresh f.toGeo f.disk cs name83 ∧ GrowFails f.toGeo f.disk cs buf.length f.allocHint

/-- **A `fat_write` that fails** has given back or linked every cluster it took, unless it could not
clear the cluster for a full directory. -/
theorem fatWrite_leaks_iff {f : Vol} (hwf : WellFormed f.toGeo f.disk.heal)
    (ho : FatsOn f.toGeo f.disk)
    {fuel : Nat} (hfuel : f.fatSz * 128 ≤ fuel) (path buf : Str) :
    ∃ ok f', fatWrite fuel path buf f = some (ok, f') ∧
      (ok = false → (NoLeak f f' ↔ ¬ Leaks fuel f path buf)) := by
  rcases fatWrite_front hwf.tree ho hfuel path buf with
    ⟨⟨s, hrun⟩, hno⟩ | ⟨r₀, leaf, name83, s, hto, hr₀, hd₀, hent, hrun⟩
  · refine ⟨false, _, hrun, fun _ => iff_of_true (fun c _ hz => Or.inl hz) ?_⟩
    intro h
    obtain ⟨clus, name83, -, hent, -⟩ := h
    exact hno clus name83 hent
  · obtain ⟨ok, f', hst, hiff⟩ :=
      @storeAt_failing { f with sec := s } hwf ho fuel hfuel r₀ name83 hr₀ hd₀ leaf
      hto buf
    refine ⟨ok, f', hrun.trans hst, fun hok => (hiff hok).trans (not_congr ?_)⟩
    constructor
    · intro h
      obtain ⟨cs, hcs, hrest⟩ := h
      exact ⟨_, name83, cs, (hent _ _).mpr ⟨rfl, rfl⟩, hcs, hrest⟩
    · intro h
      obtain ⟨clus, n, cs, hen, hcs, hrest⟩ := h
      obtain ⟨rfl, rfl⟩ := (hent _ _).mp hen
      exact ⟨cs, hcs, hrest⟩

/-- The failing call of the sample loses nothing: no sector of a cluster lies beyond the drive. -/
theorem fatWrite_leaks_iff_sample :
    ∃ f', fatWrite 128 [slash, 65] [1, 2] sampleVol = some (false, f') ∧ NoLeak sampleVol f' := by
  have hwf := sampleVol_certified.wellFormed
  obtain ⟨ok, f', hrun, hiff⟩ := fatWrite_leaks_iff hwf.heal hwf.tree.fatsOn
    (show sampleVol.fatSz * 128 ≤ 128 by decide) [slash, 65] [1, 2]
  have hok : (fatWrite 128 [slash, 65] [1, 2] sampleVol).map Prod.fst = some false := by
    decide +kernel
  rw [hrun, Option.map_some, Option.some.injEq] at hok
  subst hok
  refine ⟨f', hrun, (hiff rfl).mpr ?_⟩
  intro h
  obtain ⟨-, -, cs, -, -, -, new, hint, -, -, nc, l, hnc, hl, hw⟩ := h
  have hg := hwf.tree.geo
  obtain ⟨i, -, rfl⟩ := List.mem_map.mp (List.mem_of_find?_eq_some hnc)
  have hr := probe_inRange hg hint i
  have hlo := hl.1
  have hhi := hl.2
  rw [clusLba_eq hg hr] at hlo hhi
  have hlt : l < 140 := by
    have h1 := hr.2
    simp only [sampleVol] at h1 hhi
    omega
  exact absurd (hw.symm.trans (decide_eq_true hlt)) (by simp)

/-! ## A full root on a short drive -/

/-- A root of one cluster that is full of empty files, on a drive that ends behind cluster 3. -/
def fullVol : Vol where
  fatStart := 2
  dataStart := 4
  secPerClus := 1
  numFats := 2
  fatSz := 1
  rootClus := 2
  disk :=
    { drive := Drive.ofSize 6
      data := fun l =>
        if l = 1 then bootSector 1 2 1 2
        else if l = 2 ∨ l = 3 then fatSector [2]
        else if l = 4 then
          (List.range 16).foldl (fun s i => fillEntry s (i * 32) (letter (UInt8.ofNat (65 + i)))
            0x20 0 0)
            fun _ => 0
        else fun _ => 0
      log := [] }
  sec := fun _ => 0
  cwdClus := 2
  cwdPath := [slash]
  isMounted := true
  allocHint := 2

theorem fullVol_certified : Certified fullVol.toGeo fullVol.disk
    ((none, [2]) :: (List.range 16).map fun i => (some (4, i * 32), [])) where
  geo := ⟨by decide, by decide, by decide, by decide, by decide⟩
  size := ⟨6, rfl, by decide⟩
  root := by decide
  dirs := by
    have hfile : ∀ i < 16, isDir fullVol.disk (some (4, i * 32)) = false := by decide +kernel
    intro p hp hd
    rcases List.mem_cons.mp hp with rfl | hp
    · exact ⟨by decide +kernel, by decide, by decide +kernel, by decide +kernel, by decide +kernel,
        by decide +kernel⟩
    · obtain ⟨i, hi, rfl⟩ := List.mem_map.mp hp
      exact absurd (hd.symm.trans (hfile i (List.mem_range.mp hi))) (by simp)
  files := by
    have hempty : ∀ i < 16, entClus (ent fullVol.disk (4, i * 32)) = 0 ∧
        entSize (ent fullVol.disk (4, i * 32)) = 0 := by decide +kernel
    intro p hp hd
    rcases List.mem_cons.mp hp with rfl | hp
    · exact absurd hd (by decide)
    · obtain ⟨i, hi, rfl⟩ := List.mem_map.mp hp
      refine Or.inr ⟨fun sl hsl => ?_, rfl⟩
      rw [← Option.some.inj hsl]
      exact hempty i (List.mem_range.mp hi)
  disj := by decide +kernel
  copies := by unfold Copies; decide +kernel

/-- When the root holds nothing but empty files, its clusters are the only ones under a reference.
-/
theorem owned_of_flat {g : Geo} {d : Disk} {cs : List Nat} (hcs : ClusChain g d g.rootClus cs)
    (hflat : ∀ sl ∈ slots g cs, entIsDir (ent d sl) = false ∧ entClus (ent d sl) = 0) {c : Nat}
    (h : Owned g d c) : c ∈ cs := by
  have href : ∀ r, Ref g d r → r = none ∨ ∃ sl ∈ slots g cs, r = some sl := by
    intro r hr
    induction hr with
    | root => exact Or.inl rfl
    | @entry r sl _ hc ih =>
      obtain ⟨hdir, cs', hcs', hsl, -⟩ := hc
      rcases ih with rfl | ⟨sl', hsl', rfl⟩
      · rw [ClusChain.unique hcs' hcs] at hsl
        exact Or.inr ⟨sl, hsl, rfl⟩
      · exact absurd (hdir.symm.trans (hflat sl' hsl').1) (by simp)
  obtain ⟨r, cs', hr, hcs', hc⟩ := h
  rcases href r hr with rfl | ⟨sl, hsl, rfl⟩
  · rw [← ClusChain.unique hcs' hcs]
    exact hc
  · rw [first, (hflat sl hsl).2] at hcs'
    exact (chain_zero hcs').elim

/-- Writing `/Z` there fails, and cluster 4 is in use and nowhere linked. -/
theorem fatWrite_leaks : WellFormed fullVol.toGeo fullVol.disk.heal ∧
    FatsOn fullVol.toGeo fullVol.disk ∧
    ∃ f', fatWrite 128 [slash, 90] [] fullVol = some (false, f') ∧ ¬ NoLeak fullVol f' := by
  have hwf := fullVol_certified.wellFormed
  refine ⟨hwf.heal, hwf.tree.fatsOn, ?_⟩
  have hrun : (fatWrite 128 [slash, 90] [] fullVol).map
    (fun r => (r.1, fatEntry fullVol.toGeo r.2.disk 0 4,
      chainOk fullVol.toGeo r.2.disk 2 [2], (slots fullVol.toGeo [2]).all fun sl =>
        entIsDir (ent r.2.disk sl) == false && entClus (ent r.2.disk sl) == 0))
        = some (false, lastMark, true, true) := by
    decide +kernel
  cases hw : fatWrite 128 [slash, 90] [] fullVol with
  | none =>
    rw [hw] at hrun
    exact absurd hrun (by simp)
  | some r =>
    obtain ⟨ok, f'⟩ := r
    rw [hw, Option.map_some, Option.some.injEq, Prod.mk.injEq, Prod.mk.injEq, Prod.mk.injEq] at hrun
    obtain ⟨rfl, hmark, hchain, hflat⟩ := hrun
    simp only [List.all_eq_true, Bool.and_eq_true, beq_iff_eq] at hflat
    refine ⟨f', rfl, fun hno => ?_⟩
    rcases hno 4 (by decide) (by rw [hmark]; decide) with hold | hown
    · exact hold (by decide +kernel)
    · exact absurd (owned_of_flat (clusChain_of_chainOk hchain) hflat hown) (by decide)

end InaneOS.Fat
