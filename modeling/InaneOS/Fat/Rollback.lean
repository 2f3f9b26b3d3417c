import InaneOS.Fat.Alloc
import InaneOS.Fat.Certify
import InaneOS.Fat.FatWrite

/-!
# Rolling back

A `fat_write` that returns -1 leaves no trace in the table. While it runs, only the
clusters of the new chain differ from what they were, in their entries and in their
sectors, and all of them were free before (`Lent`). Releasing the chain sets exactly
these entries to 0 again, on every copy, so afterwards the table is the old one byte
for byte and the only sectors that differ belong to clusters that are free (`Back`).

The phase that builds the chain needs nothing of the tree: a table that can be read and
written is enough (`writeChain_outcome`), and data sectors may fail as they like.
-/

namespace InaneOS.Fat

open InaneOS.Lib

/-! ## The clusters in use by the call -/

/-- `free_chain` on a chain under construction: its entries are 0 on every copy, and nothing else
changes. -/
theorem freeNew {f : Vol} {ncs : List Nat} (hg : f.toGeo.Ok) (ho : FatsOn f.toGeo f.disk)
    (hch : ncs ≠ [] → ClusChain f.toGeo f.disk (ncs.headD 0) ncs) {fuel : Nat}
    (hfuel : f.fatSz * 128 ≤ fuel) :
    ∃ f' ws, freeChain fuel (ncs.headD 0) f = some f' ∧ Ran f f' ws ∧
      SameOff f.toGeo (· ∈ ncs) (fun _ => False) f.disk f'.disk ∧
      ∀ c ∈ ncs, ∀ k < f.numFats, fatEntry f.toGeo f'.disk k c = 0 := by
  by_cases hne : ncs = []
  · have hpos := hg.fatSz_pos
    obtain ⟨n, rfl⟩ : ∃ n, fuel = n + 1 := ⟨fuel - 1, by omega⟩
    subst hne
    exact ⟨f, [], freeChain_zero n f, Ran.sec f f.sec, SameOff.refl .., by simp⟩
  · obtain ⟨f', ws, hrun, hdone⟩ := freeChain_spec ncs _ fuel f hg ho (hch hne)
      (Nat.lt_of_lt_of_le ((hch hne).length_lt hg) hfuel)
    have hoff : SameOff f.toGeo (· ∈ ncs) (fun _ => False) f.disk f'.disk := by
      rw [hdone.ran.disk]
      exact hdone.cuts.final
    exact ⟨f', ws, hrun, hdone.ran, hoff, hdone.entry⟩

/-- The entry of `c` is 0 in `f₀`. -/
def Zero (f₀ : Vol) (c : Nat) : Prop := fatEntry f₀.toGeo f₀.disk 0 c = 0

/-- From `f₀` to `f` only the clusters `ncs` changed; they were free and are a chain now. -/
structure Lent (f₀ f : Vol) (ncs : List Nat) : Prop where
  ran : ∃ ws, Ran f₀ f ws
  off : SameOff f₀.toGeo (· ∈ ncs) (· ∈ ncs) f₀.disk f.disk
  zero : ∀ c ∈ ncs, Zero f₀ c
  chain : ncs ≠ [] → ClusChain f₀.toGeo f.disk (ncs.headD 0) ncs

/-- The table is as it was, and so are the sectors of every cluster that was in use. -/
structure Back (f₀ f : Vol) : Prop where
  ran : ∃ ws, Ran f₀ f ws
  off : SameOff f₀.toGeo (fun _ => False) (Zero f₀) f₀.disk f.disk

theorem Lent.nil (f : Vol) : Lent f f [] :=
  ⟨⟨[], Ran.sec f f.sec⟩, SameOff.refl .., by simp, fun h => absurd rfl h⟩

namespace Lent

variable {f₀ f f' : Vol} {ncs : List Nat} (h : Lent f₀ f ncs)

include h

theorem geo : f.toGeo = f₀.toGeo := by
  obtain ⟨ws, hran⟩ := h.ran
  exact hran.geo

/-- The buffer does not matter. -/
theorem sec (s : Sector) : Lent f₀ { f with sec := s } ncs := by
  obtain ⟨ws, hran⟩ := h.ran
  exact ⟨⟨ws, by simpa using hran.trans (Ran.sec f s)⟩, h.off, h.zero, h.chain⟩

/-- Writes into the chain's clusters that keep it a chain. -/
theorem step {A B : Nat → Prop} {vs : List (Nat × Sector)} (hran : Ran f f' vs)
    (hoff : SameOff f₀.toGeo A B f.disk f'.disk) (hA : ∀ c, A c → c ∈ ncs)
    (hB : ∀ c, B c → c ∈ ncs)
    (hch : ncs ≠ [] → ClusChain f₀.toGeo f'.disk (ncs.headD 0) ncs) : Lent f₀ f' ncs := by
  obtain ⟨ws, hran₀⟩ := h.ran
  exact ⟨⟨ws ++ vs, hran₀.trans hran⟩,
    h.off.trans (hoff.mono (fun c _ hc => hA c hc) (fun c _ hc => hB c hc)), h.zero, hch⟩

variable (hg : f₀.toGeo.Ok) (ho : FatsOn f₀.toGeo f₀.disk)

include hg

/-- A cluster that is free now was free before. -/
theorem zero_of {c : Nat} (hc : c < f₀.fatSz * 128) (hz : fatEntry f₀.toGeo f.disk 0 c = 0) :
    Zero f₀ c := by
  by_cases hmem : c ∈ ncs
  · exact h.zero c hmem
  · rw [Zero, ← h.off.entry hg hg.fats_pos hc fun _ => hmem]
    exact hz

/-- The free clusters are the old ones without the chain. -/
theorem entry_iff {c : Nat} (hc : InRange f₀.toGeo c) :
    fatEntry f₀.toGeo f.disk 0 c = 0 ↔ Zero f₀ c ∧ c ∉ ncs := by
  by_cases hmem : c ∈ ncs
  · have hne : ncs ≠ [] := List.ne_nil_of_mem hmem
    exact iff_of_false ((h.chain hne).entry_ne hmem) fun hz => hz.2 hmem
  · rw [h.off.entry hg hg.fats_pos hc.2 fun _ => hmem]
    exact (and_iff_left hmem).symm

/-- The next cluster is the one that comes behind the chain. -/
theorem next (hint : Nat) : nextFree f₀.toGeo f.disk [] hint = nextFree f₀.toGeo f₀.disk ncs hint :=
  nextFree_congr hg hint fun c hc => by
    rw [h.entry_iff hg hc, and_iff_left List.not_mem_nil]
    exact Iff.rfl

include ho

/-- `free_chain(newclus)` takes everything back. -/
theorem release (hcp : Copies f₀.toGeo f₀.disk) {fuel : Nat} (hfuel : f₀.fatSz * 128 ≤ fuel) :
    ∃ f', freeChain fuel (ncs.headD 0) f = some f' ∧ Back f₀ f' := by
  obtain ⟨ws, hran⟩ := h.ran
  have hgeo := hran.geo
  obtain ⟨f', vs, hrun, hran', hoff, hent⟩ := freeNew (f := f) (by rw [hgeo]; exact hg)
    (by rw [hgeo]; exact ho.congr h.off.drive) (by rw [hgeo]; exact h.chain)
    (show f.toGeo.fatSz * 128 ≤ fuel by rw [hgeo]; exact hfuel)
  rw [hgeo] at hoff hent
  have hall := h.off.trans (hoff.mono (fun _ _ hc => hc) fun _ _ hc => hc.elim)
  refine ⟨f', hrun, ⟨ws ++ vs, hran.trans hran'⟩, hall.drive, fun l i _ hB => ?_⟩
  by_cases hfat : ∃ c, InRange f₀.toGeo c ∧ c ∈ ncs ∧ PosFat f₀.toGeo c l i
  · -- a byte of an entry that was 0 on this copy and is 0 again
    obtain ⟨c, hc, hmem, k, hk, rfl, hlo, hhi⟩ := hfat
    have hold : fatEntry f₀.toGeo f₀.disk k c = 0 := (hcp k hk c hc.2).trans (h.zero c hmem)
    have hnew : fatEntry f₀.toGeo f'.disk k c = 0 := hent c hmem k hk
    unfold fatEntry at hold hnew
    rw [rd32_eq] at hold hnew
    exact getLE_inj (hnew.trans hold.symm) i hlo hhi
  · refine hall.data l i (fun c hc hmem hp => hfat ⟨c, hc, hmem, hp⟩) fun c hc hmem hp => ?_
    exact hB c hc (h.zero c hmem) hp

/-- `alloc_clus` and the link to the new cluster. -/
theorem link {c : Nat} {f₁ : Vol} {vs : List (Nat × Sector)} (hr : InRange f₀.toGeo c)
    (hz : fatEntry f₀.toGeo f.disk 0 c = 0) (hd : SetDone f c lastMark f₁ vs) :
    ∃ f₂, (if ncs.headD 0 = 0 then (true, f₁) else fatSet (ncs.getLastD 0) c f₁) = (true, f₂) ∧
      Lent f₀ f₂ (ncs ++ [c]) ∧ f₂.allocHint = f₁.allocHint := by
  obtain ⟨ws, hran⟩ := h.ran
  have hgeo := hran.geo
  obtain ⟨f₂, us, hrun, hlink, hch⟩ := linkLast_spec hgeo hg (ho.congr h.off.drive) h.chain hr hz hd
  have hzero : ∀ x ∈ ncs ++ [c], Zero f₀ x := by
    intro x hx
    rcases List.mem_append.mp hx with hx | hx
    · exact h.zero x hx
    · rw [List.mem_singleton.mp hx]
      exact h.zero_of hg hr.2 hz
  have hoff := hd.sameOff
  rw [hgeo] at hoff
  have h₁ : SameOff f₀.toGeo (· ∈ ncs ++ [c]) (· ∈ ncs ++ [c]) f₀.disk f₁.disk :=
    (h.off.mono (fun x _ hx => List.mem_append_left _ hx)
      fun x _ hx => List.mem_append_left _ hx).trans
      (hoff.mono (fun x _ hx => by simp [hx]) fun _ _ hx => hx.elim)
  have hhint : f₂.allocHint = f₁.allocHint := by
    by_cases h0 : ncs.headD 0 = 0
    · rw [if_pos h0, Prod.mk.injEq] at hrun
      rw [hrun.2]
    · rw [if_neg h0] at hrun
      have hset := fatSetLoop_hint (ncs.getLastD 0) c f₁.numFats 0 f₁
      rw [← fatSet, hrun] at hset
      exact hset
  refine ⟨f₂, hrun, ?_, hhint⟩
  rcases hlink with ⟨-, rfl, rfl⟩ | ⟨hne, hd₂⟩
  · exact ⟨⟨ws ++ vs, hran.trans hd.ran⟩, h₁, hzero, fun _ => hch⟩
  · have hoff₂ := hd₂.sameOff
    rw [hd.ran.geo, hgeo] at hoff₂
    refine ⟨⟨_, (hran.trans hd.ran).trans hd₂.ran⟩, h₁.trans (hoff₂.mono (fun x _ hx => ?_)
      fun _ _ hx => hx.elim), hzero, fun _ => hch⟩
    rw [hx]
    exact List.mem_append_left _ (getLastD_mem hne)

omit ho in
/-- The data goes into the last cluster, when its sectors can be written. -/
theorem fill {c : Nat} (left : Str) (hmem : c ∈ ncs) :
    ∃ ok rest f', writeClus f.secPerClus (clusLba c f.toGeo) left f = (ok, rest, f') ∧
      Lent f₀ f' ncs ∧ f'.allocHint = f.allocHint ∧
      (ok = true ↔ ∀ s < f₀.secPerClus, s * 512 < left.length →
        f₀.disk.drive.writes (clusLba c f₀.toGeo + s) = true) ∧
      (ok = true → rest.length = left.length - f₀.secPerClus * 512) := by
  have hne := List.ne_nil_of_mem hmem
  have hch := h.chain hne
  have hr := hch.2 c hmem
  rw [h.geo]
  obtain ⟨ok, rest, f', vs, hrun, hran, hpos, hrest⟩ :=
    writeClus_spec f₀.secPerClus (clusLba c f₀.toGeo) left f
  have hok := writeClus_ok f₀.secPerClus (clusLba c f₀.toGeo) left f
  have hhint := writeClus_hint f₀.secPerClus (clusLba c f₀.toGeo) left f
  rw [hrun, h.off.drive] at hok
  rw [hrun] at hhint
  have hoff : SameOff f₀.toGeo (fun _ => False) (· = c) f.disk f'.disk := by
    rw [hran.disk]
    exact (@always_posData _ f.disk _ hr _ _ hpos (SameOff.refl ..)).final
  refine ⟨ok, rest, f', hrun, h.step hran hoff (by simp) (fun x hx => hx ▸ hmem)
    fun _ => hch.sameOff hg hoff (by simp), hhint, hok, fun h => ?_⟩
  rw [(hrest h).1, List.length_drop]

end Lent

/-- **The first phase of `fat_write`** without regard to the tree: when the data has its place the
chain is there, and otherwise everything is taken back. -/
theorem writeChain_outcome {f₀ : Vol} (hg : f₀.toGeo.Ok) (ho : FatsOn f₀.toGeo f₀.disk)
    (hcp : Copies f₀.toGeo f₀.disk) {fuel : Nat} (hfuel : f₀.fatSz * 128 ≤ fuel) :
    ∀ (k : Nat) (left : Str) (ncs : List Nat) (f : Vol), Lent f₀ f ncs →
      f₀.fatSz * 128 ≤ k + ncs.length →
      ∃ res f', writeChain fuel k left (ncs.headD 0) (ncs.getLastD 0) f = some (res, f') ∧
        (res = none ∧ Back f₀ f' ∧
          (∀ new hint, ¬ Placed f₀.toGeo f₀.disk left.length ncs f.allocHint new hint) ∨
        ∃ new, res = some ((ncs ++ new).headD 0) ∧ Lent f₀ f' (ncs ++ new) ∧
          Placed f₀.toGeo f₀.disk left.length ncs f.allocHint new f'.allocHint)
  | 0, left, ncs, f, h, hk => by
    have hne : ncs ≠ [] := by
      intro he
      subst he
      have := hg.fatSz_pos
      simp only [List.length_nil] at hk
      omega
    have := (h.chain hne).length_lt hg
    omega
  | k + 1, left, ncs, f, h, hk => by
    -- every way out of the round takes everything back
    have hgive : ∀ {f : Vol} {ncs : List Nat}, Lent f₀ f ncs →
        ∃ f', giveUp fuel (ncs.headD 0) f = some (none, f') ∧ Back f₀ f' := by
      intro f ncs h
      obtain ⟨f₁, hfree, hback⟩ := h.release hg ho hcp hfuel
      exact ⟨f₁, by rw [giveUp, hfree]; rfl, hback⟩
    rw [writeChain]
    by_cases hleft : left = []
    · rw [if_pos hleft]
      refine ⟨_, f, rfl, Or.inr ⟨[], by rw [List.append_nil], by rw [List.append_nil]; exact h, ?_⟩⟩
      rw [hleft]
      exact placed_nil.mpr ⟨rfl, rfl⟩
    · have hpos : 0 < left.length := List.length_pos_iff.mpr hleft
      have hgeo := h.geo
      have hspc := hg.spc_pos
      have hnext := h.next hg f.allocHint
      rw [if_neg hleft]
      rcases allocClus_next (f := f) (by rw [hgeo]; exact hg)
          (by rw [hgeo]; exact ho.congr h.off.drive) with
        ⟨hnone, s, hs⟩ | ⟨c, f₁, vs, hc, hal, hr, hz, hd, hhint₁⟩
      · obtain ⟨f', hgive, hback⟩ := hgive (h.sec s)
        rw [hgeo, hnext] at hnone
        rw [hs]
        simp only [if_true]
        refine ⟨none, f', hgive, Or.inl ⟨rfl, hback, fun new hint hp => ?_⟩⟩
        obtain ⟨c, -, -, hc, -⟩ := (placed_step hspc hpos).mp hp
        exact absurd (hnone.symm.trans hc) (by simp)
      · rw [hgeo] at hr hz
        rw [hgeo, hnext] at hc
        have hc0 : c ≠ 0 := by have := hr.1; omega
        obtain ⟨f₂, hlink, h₂, hhint₂⟩ := h.link hg ho hr hz hd
        obtain ⟨ok, rest, f₃, hwr, h₃, hhint₃, hok, hrest⟩ := h₂.fill hg (c := c) left (by simp)
        have hhint : f₃.allocHint = c := hhint₃.trans (hhint₂.trans hhint₁)
        rw [hal]
        simp only [if_neg hc0, hlink, head_link h.chain, hwr]
        cases ok with
        | false =>
          obtain ⟨f', hgive, hback⟩ := hgive h₃
          refine ⟨none, f', hgive, Or.inl ⟨rfl, hback, fun new hint hp => ?_⟩⟩
          obtain ⟨c', -, -, hc', hw, -⟩ := (placed_step hspc hpos).mp hp
          obtain rfl : c = c' := Option.some.inj (hc.symm.trans hc')
          exact absurd (hok.mpr hw) (by simp)
        | true =>
          have hlast : (ncs ++ [c]).getLastD 0 = c := by simp
          have hrec := writeChain_outcome hg ho hcp hfuel k rest (ncs ++ [c]) f₃ h₃
            (by rw [List.length_append, List.length_singleton]; omega)
          rw [hlast, hhint, hrest rfl] at hrec
          obtain ⟨res, f', hrun, hcase⟩ := hrec
          refine ⟨res, f', hrun, ?_⟩
          rcases hcase with ⟨rfl, hback, hno⟩ | ⟨new, rfl, hlent, hp⟩
          · refine Or.inl ⟨rfl, hback, fun new hint hp => ?_⟩
            obtain ⟨c', new', rfl, hc', -, hp'⟩ := (placed_step hspc hpos).mp hp
            obtain rfl : c = c' := Option.some.inj (hc.symm.trans hc')
            exact hno new' hint hp'
          · rw [List.append_assoc, List.singleton_append] at hlent
            refine Or.inr ⟨c :: new, by rw [List.append_assoc, List.singleton_append], hlent, ?_⟩
            exact (placed_step hspc hpos).mpr ⟨c, new, rfl, hc, hok.mp rfl, hp⟩

/-! ## The entry slot -/

/-- Free clusters are under no reference. -/
theorem Lent.untouched {f₀ f : Vol} {ncs : List Nat} (h : Lent f₀ f ncs)
    (ht : Tree f₀.toGeo f₀.disk) : Untouched f₀.toGeo f₀.disk f.disk := by
  have hfree : ∀ x, Owned f₀.toGeo f₀.disk x → x ∉ ncs := by
    intro x hx hmem
    obtain ⟨r, cs, -, hcs, hxc⟩ := hx
    exact hcs.entry_ne hxc (h.zero x hmem)
  exact ht.untouched h.off hfree hfree

/-- A write to a sector that works does not fail. -/
theorem switchEntry_ok {fuel : Nat} {found : Option Found} {lba off : Nat} {name83 : Str}
    {newclus len : Nat} {f f' : Vol} {ok : Bool} (hw : f.disk.drive.writes lba = true)
    (hrun : switchEntry fuel found lba off name83 newclus len f = some (ok, f')) : ok = true := by
  unfold switchEntry at hrun
  simp only [ideWrite, hw] at hrun
  cases found with
  | none => exact (Prod.mk.inj (Option.some.inj hrun)).1.symm
  | some fd =>
    dsimp only at hrun
    by_cases hge : fd.clus ≥ 2
    · rw [if_pos hge] at hrun
      obtain ⟨x, -, hx⟩ := Option.map_eq_some_iff.mp hrun
      exact (Prod.mk.inj hx).1.symm
    · rw [if_neg hge] at hrun
      exact (Prod.mk.inj (Option.some.inj hrun)).1.symm

theorem zeroClus_works : ∀ (n l : Nat) (f : Vol),
    (∀ s, l ≤ s → s < l + n → f.disk.drive.writes s = true) → (zeroClus n l f).1 = true
  | 0, _, _, _ => rfl
  | n + 1, l, f, h => by
    have hl := h l (Nat.le_refl _) (by omega)
    simp only [zeroClus, ideWrite, hl]
    exact zeroClus_works n (l + 1) _ fun s h1 h2 => h s (by omega) (by omega)

/-- The clusters the table knows can be read and written. -/
def ClusWork (g : Geo) (d : Disk) : Prop :=
  ∀ c l, InRange g c → PosData g c l → d.drive.Works l

/-- On a disk without failures a directory cannot grow only when the volume is full. -/
theorem growDir_outcome {f : Vol} (hg : f.toGeo.Ok) (ho : FatsOn f.toGeo f.disk)
    (hio : ClusWork f.toGeo f.disk) {t : Nat} (ht : InRange f.toGeo t) :
    (∃ s, growDir t f = (none, { f with sec := s })) ∨
      ∃ lba off f', growDir t f = (some (lba, off), f') ∧ f'.disk.drive.writes lba = true := by
  unfold growDir
  rcases allocClus_spec hg ho with ⟨s, hs⟩ | ⟨nc, f₁, vs, hal, hr, -, hd⟩
  · rw [hs]
    exact Or.inl ⟨s, rfl⟩
  · have hnc0 : nc ≠ 0 := by have := hr.1; omega
    have hgeo₁ : f₁.toGeo = f.toGeo := hd.ran.geo
    have hw : ∀ l, PosData f.toGeo nc l → f₁.disk.drive.Works l := by
      intro l hl
      rw [hd.sameOff.drive]
      exact hio nc l hr hl
    have hz := zeroClus_works f₁.secPerClus (clusLba nc f₁.toGeo) f₁ (fun s h1 h2 => by
      rw [hgeo₁] at h1 h2
      exact (hw s ⟨h1, h2⟩).2)
    obtain ⟨ok, f₂, us, hzrun, hzran, -, -⟩ :=
      zeroClus_spec f₁.secPerClus (clusLba nc f₁.toGeo) f₁
    rw [hzrun] at hz
    obtain rfl : ok = true := hz
    have hgeo₂ : f₂.toGeo = f.toGeo := hzran.geo.trans hgeo₁
    have hdrive₂ : f₂.disk.drive = f.disk.drive := by
      rw [hzran.disk, Disk.crash_drive, hd.sameOff.drive]
    have hv : nc < 2 ^ 32 := by
      have hlt := hr.lt_eoc hg
      unfold eoc at hlt
      omega
    obtain ⟨f₃, ts, hset, hd₃⟩ := fatSet_spec (c := t) (v := nc) (f := f₂) (by rw [hgeo₂]; exact hg)
      (by rw [hgeo₂]; exact ho.congr hdrive₂) (by rw [hgeo₂]; exact ht) hv
    have hw₃ : f₃.disk.drive.Works (clusLba nc f₃.toGeo) := by
      rw [hd₃.sameOff.drive, hdrive₂, hd₃.ran.geo, hgeo₂]
      exact hio nc _ hr ⟨Nat.le_refl _, Nat.lt_add_of_pos_right hg.spc_pos⟩
    rw [hal]
    dsimp only
    rw [if_neg hnc0, hzrun]
    dsimp only
    rw [hset]
    dsimp only
    rw [ideRead_works hw₃.1]
    exact Or.inr ⟨_, _, _, rfl, hw₃.2⟩

section Store

variable {f₀ : Vol} (hwf : WellFormed f₀.toGeo f₀.disk) (hio : ClusWork f₀.toGeo f₀.disk)
  {fuel : Nat} (hfuel : f₀.fatSz * 128 ≤ fuel) {r₀ : Option Slot}
  (hr₀ : Ref f₀.toGeo f₀.disk r₀) (hd₀ : isDir f₀.disk r₀ = true)

include hwf hio hfuel hr₀ hd₀

/-- `dir_slot` finds room or leaves everything alone. -/
theorem dirSlot_outcome {f : Vol} {ncs : List Nat} (h : Lent f₀ f ncs) {res : Option (Nat × Nat)}
    {f' : Vol} (hrun : dirSlot fuel (first f₀.toGeo f₀.disk r₀) f = some (res, f')) :
    res = none ∧ Lent f₀ f' ncs ∨
      ∃ lba off, res = some (lba, off) ∧ f'.disk.drive.writes lba = true := by
  have ht := hwf.tree
  have hu := h.untouched ht
  have hgeo := h.geo
  have htree : Tree f.toGeo f.disk := by
    rw [hgeo]
    exact hu.tree ht
  have hr : Ref f.toGeo f.disk r₀ := by
    rw [hgeo]
    exact (hu.ref_iff ht).mpr hr₀
  have hd : isDir f.disk r₀ = true := (hu.isDir_eq hr₀).trans hd₀
  have hfirst : first f₀.toGeo f₀.disk r₀ = first f.toGeo f.disk r₀ := by
    rw [hgeo, hu.first_eq hr₀]
  obtain ⟨cs, hcs⟩ := htree.dirChain hr hd
  have hfuel' : f.fatSz * 128 ≤ fuel := by
    rw [hgeo]
    exact hfuel
  obtain ⟨sc, f₁, hscan, -, ⟨s, rfl⟩, hstop⟩ := htree.scan none slotBody hr hd hcs hfuel' 0 ()
  rw [hfirst, dirSlot, hscan] at hrun
  cases sc with
  | error r =>
    dsimp only [scanEnd] at hrun
    rw [Option.some.injEq, Prod.mk.injEq] at hrun
    obtain ⟨rfl, rfl⟩ := hrun
    obtain ⟨sl, hsl, -, b, hb⟩ := hstop _ rfl
    obtain ⟨rfl, -⟩ := slotBody_error hb
    refine Or.inr ⟨sl.1, sl.2, rfl, ?_⟩
    exact (htree.onDisk r₀ cs hr hd hcs sl.1 (mem_slots.mp hsl).1).2
  | ok a =>
    dsimp only [scanEnd] at hrun
    have hne : cs ≠ [] := by
      intro he
      subst he
      exact absurd hcs.1 (Nat.not_le.mpr ((htree.dirIn r₀ hr hd).lt_eoc htree.geo))
    have hin : InRange f.toGeo (cs.getLastD 0) := hcs.2 _ (getLastD_mem hne)
    rw [if_neg (by have := hin.1; omega), Option.some.injEq] at hrun
    have hio' : ClusWork f.toGeo f.disk := by
      intro c l hc hl
      rw [hgeo] at hc hl
      rw [h.off.drive]
      exact hio c l hc hl
    rcases @growDir_outcome { f with sec := s } htree.geo htree.fatsOn hio' _ hin with
      ⟨s', hs'⟩ | ⟨lba, off, f'', hgrow, hw⟩
    · rw [hs', Prod.mk.injEq] at hrun
      obtain ⟨rfl, rfl⟩ := hrun
      exact Or.inl ⟨rfl, h.sec s'⟩
    · rw [hgrow, Prod.mk.injEq] at hrun
      obtain ⟨rfl, rfl⟩ := hrun
      exact Or.inr ⟨lba, off, rfl, hw⟩

/-- `fat_write` from the result of `lookup` on takes everything back when it fails. -/
theorem storeFile_back {name83 buf : Str} {found : Option Found}
    (hfound : ∀ fd, found = some fd → f₀.disk.drive.Works fd.lba) {f' : Vol}
    (hrun : storeFile fuel (first f₀.toGeo f₀.disk r₀) name83 found buf f₀ = some (false, f')) :
    Back f₀ f' := by
  have hg := hwf.tree.geo
  have ho := hwf.tree.fatsOn
  have hfree : ∀ {f : Vol} {ncs : List Nat}, Lent f₀ f ncs →
      (freeChain fuel (ncs.headD 0) f).map (fun f => (false, f)) = some (false, f') →
        Back f₀ f' := by
    intro f ncs h hrun
    obtain ⟨f₁, hfree, hback⟩ := h.release hg ho hwf.copies hfuel
    rw [hfree, Option.map_some, Option.some.injEq, Prod.mk.injEq] at hrun
    exact hrun.2 ▸ hback
  unfold storeFile at hrun
  obtain ⟨res, f₁, hchain, hcase⟩ :=
    writeChain_outcome hg ho hwf.copies hfuel fuel buf [] f₀ (Lent.nil f₀)
    hfuel
  rw [show writeChain fuel fuel buf 0 0 f₀ = some (res, f₁) from hchain] at hrun
  rcases hcase with ⟨rfl, hback, -⟩ | ⟨ncs, rfl, h, -⟩
  · rw [Option.some.injEq, Prod.mk.injEq] at hrun
    exact hrun.2 ▸ hback
  · rw [List.nil_append] at h hrun
    dsimp only at hrun
    cases found with
    | some fd =>
      -- the sector of the old entry is read and written without a failure
      have hw : f₁.disk.drive.Works fd.lba := by
        rw [h.off.drive]
        exact hfound fd rfl
      dsimp only at hrun
      rw [ideRead_works hw.1] at hrun
      exact absurd (switchEntry_ok (by exact hw.2) hrun) (by simp)
    | none =>
      dsimp only at hrun
      cases hslot : dirSlot fuel (first f₀.toGeo f₀.disk r₀) f₁ with
      | none =>
        rw [hslot] at hrun
        exact absurd hrun (by simp)
      | some q =>
        obtain ⟨res, f₂⟩ := q
        rw [hslot] at hrun
        rcases dirSlot_outcome hwf hio hfuel hr₀ hd₀ h hslot with ⟨rfl, h₂⟩ | ⟨lba, off, rfl, hw⟩
        · exact hfree h₂ hrun
        · exact absurd (switchEntry_ok hw hrun) (by simp)

end Store

/-! ## `fat_write` -/

/-- A failing call leaves the table and every cluster that is in use alone. -/
theorem fatWrite_back {f f' : Vol} (hwf : WellFormed f.toGeo f.disk)
    (hio : ClusWork f.toGeo f.disk) {fuel : Nat} (hfuel : f.fatSz * 128 ≤ fuel) {path buf : Str}
    (hrun : fatWrite fuel path buf f = some (false, f')) : Back f f' := by
  have ht := hwf.tree
  obtain ⟨s, h | ⟨r₀, name83, found, htar, hso, h⟩⟩ := fatWrite_cases ht hfuel path buf
  · rw [h, Option.some.injEq, Prod.mk.injEq] at hrun
    obtain ⟨-, rfl⟩ := hrun
    exact ⟨⟨[], Ran.sec f s⟩, SameOff.refl ..⟩
  · rw [h] at hrun
    have hfound : ∀ fd, found = some fd → f.disk.drive.Works fd.lba := by
      intro fd hfd
      rcases hso with ⟨hnone, -⟩ | ⟨fd', sl, hfd', ⟨⟨hdir, cs, hcs, hsl, -⟩, -⟩, -, hlba, -⟩
      · exact absurd (hnone.symm.trans hfd) (by simp)
      · obtain rfl : fd' = fd := Option.some.inj (hfd'.symm.trans hfd)
        rw [hlba]
        exact ht.onDisk r₀ cs htar.ref hdir hcs sl.1 (mem_slots.mp hsl).1
    obtain ⟨⟨ws, hran⟩, hoff⟩ := @storeFile_back { f with sec := s } hwf hio fuel hfuel r₀ htar.ref
      htar.dir name83 buf found hfound f' hrun
    exact ⟨⟨ws, hran.ofSec⟩, hoff⟩

/-- **A `fat_write` that fails is rolled back**: the table, the directories and every
cluster that was in use are byte for byte what they were. -/
theorem fatWrite_rollback {f : Vol} (hwf : WellFormed f.toGeo f.disk)
    (hio : ClusWork f.toGeo f.disk) {fuel : Nat} (hfuel : f.fatSz * 128 ≤ fuel) (path buf : Str) :
    ∃ ok f', fatWrite fuel path buf f = some (ok, f') ∧ (ok = false →
      (∀ l, f.fatStart ≤ l → l < f.dataStart → f'.disk.data l = f.disk.data l) ∧
      (∀ r cs, Ref f.toGeo f.disk r → isDir f.disk r = true →
        ClusChain f.toGeo f.disk (first f.toGeo f.disk r) cs →
          ∀ l ∈ secsOf f.toGeo cs, f'.disk.data l = f.disk.data l) ∧
      ∀ c, InRange f.toGeo c → fatEntry f.toGeo f.disk 0 c ≠ 0 →
        ∀ l, PosData f.toGeo c l → f'.disk.data l = f.disk.data l) := by
  have ht := hwf.tree
  obtain ⟨ok, f', -, hrun, -⟩ := fatWrite_spec ht hfuel path buf
  refine ⟨ok, f', hrun, fun hok => ?_⟩
  subst hok
  have hback := fatWrite_back hwf hio hfuel hrun
  have hused : ∀ c, InRange f.toGeo c → fatEntry f.toGeo f.disk 0 c ≠ 0 →
      ∀ l, PosData f.toGeo c l → f'.disk.data l = f.disk.data l :=
    fun c hc hz l hl => hback.off.sector ht.geo hc hz hl
  refine ⟨fun l _ hhi => ?_, fun r cs _ _ hcs l hl => ?_, hused⟩
  · -- no cluster lies in the table
    funext i
    refine hback.off.data l i (by simp) fun c hc _ hp => ?_
    have := posData_ge ht.geo hc hp
    omega
  · obtain ⟨c, hc, hp⟩ := mem_secsOf.mp hl
    exact hused c (hcs.2 c hc) (hcs.entry_ne hc) l hp

/-- Writing to the sample's directory `/A` fails, and the first table sector is the old one. -/
theorem fatWrite_rollback_sample : ∃ f', fatWrite 128 [slash, 65] [1, 2] sampleVol
    = some (false, f') ∧ f'.disk.data 2 = sampleVol.disk.data 2 := by
  have hio : ClusWork sampleVol.toGeo sampleVol.disk := by
    intro c l hc hl
    have hg := sampleVol_certified.geo
    have h2 := hl.2
    rw [clusLba_eq hg hc] at h2
    have hlt : l < 140 := by
      have h1 := hc.2
      simp only [sampleVol] at h1 h2
      omega
    exact ⟨decide_eq_true hlt, decide_eq_true hlt⟩
  obtain ⟨ok, f', hrun, hback⟩ := fatWrite_rollback sampleVol_certified.wellFormed hio
    (show sampleVol.fatSz * 128 ≤ 128 by decide) [slash, 65] [1, 2]
  have hok : (fatWrite 128 [slash, 65] [1, 2] sampleVol).map Prod.fst = some false := by
    decide +kernel
  rw [hrun, Option.map_some, Option.some.injEq] at hok
  subst hok
  exact ⟨f', hrun, (hback rfl).1 2 (by decide) (by decide)⟩

end InaneOS.Fat
