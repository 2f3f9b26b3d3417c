import InaneOS.Mem.Map

/-!
# Clearing a range

`vmm_unmap_range` clears the 4 KB entries of a range of pages and gives the frames
they point at back to the allocator, whoever owns them. `Cleared a b m m'` says what
has become of `m` when the pages from `a` up to `b` are done: one page is one step
(`cleared_page`), adjacent ranges compose (`Cleared.trans`), and the loop follows by
induction (`unmapLoop_cleared`).
-/

namespace InaneOS.Mem

open InaneOS.Lib

theorem pmmFreeFrame_used_iff (phys : Nat) (p : Pmm) (g : Nat) :
    (pmmFreeFrame phys p).used g = true ↔
      p.used g = true ∧ ¬ (g = phys / 4096 ∧ g < p.totalFrames) := by
  constructor
  · intro hu
    obtain ⟨hold, hne⟩ := pmmFreeFrame_used phys p g hu
    exact ⟨hold, fun hboth => hne hboth.1 hboth.2⟩
  · intro ⟨hold, hne⟩
    by_cases hg : g = phys / frameSize
    · have hlt : ¬ phys / frameSize < p.totalFrames := fun hlt => hne ⟨hg, hg ▸ hlt⟩
      unfold pmmFreeFrame
      dsimp only
      rw [if_neg fun hboth => hlt hboth.1]
      exact hold
    · exact pmmFreeFrame_keeps hold hg

theorem pmmFreeFrame_total (phys : Nat) (p : Pmm) :
    (pmmFreeFrame phys p).totalFrames = p.totalFrames ∧
      (pmmFreeFrame phys p).cursor = p.cursor := by
  unfold pmmFreeFrame
  dsimp only
  split
  · exact ⟨rfl, rfl⟩
  · exact ⟨rfl, rfl⟩

/-! ## One page -/

section Page

variable {m : Mach} {v t : Nat}

theorem unmapFrom_stop {level d : Nat} (h : level + 1 + d = 3) (hd : m.node (path v d) = some t)
    (hstop : m.node (path v (d + 1)) = none) : unmapFrom (v * 4096) (level + 1) t m = m := by
  rw [node_path_succ hd] at hstop
  rw [unmapFrom, tableIdx_zero v h]
  refine if_pos (by_contra fun hno => ?_)
  obtain ⟨hp, hl⟩ := not_or.mp hno
  rw [next_of_present (by omega) (not_not.mp hp) fun hb => hl ⟨by omega, hb.2⟩] at hstop
  exact absurd hstop (by simp)

theorem unmapFrom_down {level d s : Nat} (h : level + 1 + d = 3) (hd : m.node (path v d) = some t)
    (hs : m.node (path v (d + 1)) = some s) :
    unmapFrom (v * 4096) (level + 1) t m = unmapFrom (v * 4096) level s m := by
  rw [node_path_succ hd] at hs
  obtain ⟨-, hp, hl, hf⟩ := next_some hs
  rw [unmapFrom, tableIdx_zero v h]
  refine (if_neg fun hor => ?_).trans (by rw [hf])
  exact hor.elim (fun hno => hno hp) fun hb => hl ⟨by omega, hb.2⟩

/-- A page without a page table is passed over. -/
theorem unmapFrom_none (h : m.node (path v 3) = none) : unmapFrom (v * 4096) 3 m.pml4 m = m := by
  have h0 : m.node (path v 0) = some m.pml4 := rfl
  cases h1 : m.node (path v 1) with
  | none => exact unmapFrom_stop (show 2 + 1 + 0 = 3 from rfl) h0 h1
  | some t1 =>
    rw [unmapFrom_down (show 2 + 1 + 0 = 3 from rfl) h0 h1]
    cases h2 : m.node (path v 2) with
    | none => exact unmapFrom_stop (show 1 + 1 + 1 = 3 from rfl) h1 h2
    | some t2 =>
      rw [unmapFrom_down (show 1 + 1 + 1 = 3 from rfl) h1 h2]
      exact unmapFrom_stop (show 0 + 1 + 2 = 3 from rfl) h2 h

/-- With a page table, the entry decides. -/
theorem unmapFrom_table (h : m.node (path v 3) = some t) : unmapFrom (v * 4096) 3 m.pml4 m =
    if present (m.mem t (pageIdx v 3)) then
      poke t (pageIdx v 3) 0
        { m with pmm := pmmFreeFrame (m.mem t (pageIdx v 3) / 4096 * 4096) m.pmm }
    else m := by
  have h0 : m.node (path v 0) = some m.pml4 := rfl
  obtain ⟨t2, h2, -⟩ := node_path_above h
  obtain ⟨t1, h1, -⟩ := node_path_above h2
  rw [unmapFrom_down (show 2 + 1 + 0 = 3 from rfl) h0 h1,
    unmapFrom_down (show 1 + 1 + 1 = 3 from rfl) h1 h2,
    unmapFrom_down (show 0 + 1 + 2 = 3 from rfl) h2 h, unmapFrom,
    tableIdx_zero v (show 0 + 3 = 3 from rfl)]

end Page

/-! ## A range of pages -/

/-- The page has a present 4 KB entry. -/
def Mapped4K (m : Mach) (v : Nat) : Prop := Small m v ∧ present (pte m v)

/-- Some page in `[a, b)` has a 4 KB entry for frame `f`. -/
def Targeted (m : Mach) (a b f : Nat) : Prop :=
  ∃ w, a ≤ w ∧ w < b ∧ Mapped4K m w ∧ pte m w / 4096 = f

/-- `m'` is `m` with the pages in `[a, b)` unmapped and the frames they pointed at free. -/
structure Cleared (a b : Nat) (m m' : Mach) : Prop where
  pml4 : m'.pml4 = m.pml4
  node : ∀ p, m'.node p = m.node p
  cleared : ∀ w, a ≤ w → w < b → Mapped4K m w → pte m' w = 0
  kept : ∀ w < 2 ^ 36, ¬ (a ≤ w ∧ w < b ∧ Mapped4K m w) → pte m' w = pte m w
  upper : ∀ (bit : Nat → Prop) w, Upper bit m' w ↔ Upper bit m w
  mem : ∀ f, ¬ IsTable m f → m'.mem f = m.mem f
  total : m'.pmm.totalFrames = m.pmm.totalFrames
  cursor : m'.pmm.cursor = m.pmm.cursor
  used : ∀ f, m'.pmm.used f = true ↔
    m.pmm.used f = true ∧ ¬ (f < m.pmm.totalFrames ∧ Targeted m a b f)
  starved : m'.starved = m.starved
  strayed : m'.strayed = m.strayed

namespace Cleared

variable {m m' m'' : Mach} {a b c : Nat}

theorem isTable (h : Cleared a b m m') (f : Nat) : IsTable m' f ↔ IsTable m f := by
  unfold IsTable
  simp only [h.node]

theorem small (h : Cleared a b m m') (w : Nat) : Small m' w ↔ Small m w := by
  unfold Small
  rw [h.node]

/-- Outside the range nothing has changed. -/
theorem mapped (h : Cleared a b m m') {w : Nat} (hw : w < 2 ^ 36) (hout : ¬ (a ≤ w ∧ w < b)) :
    Mapped4K m' w ↔ Mapped4K m w := by
  unfold Mapped4K
  rw [h.small, h.kept w hw fun hin => hout ⟨hin.1, hin.2.1⟩]

theorem refl (a : Nat) (m : Mach) : Cleared a a m m where
  pml4 := rfl
  node _ := rfl
  cleared w h1 h2 := by omega
  kept _ _ _ := rfl
  upper _ _ := Iff.rfl
  mem _ _ := rfl
  total := rfl
  cursor := rfl
  used f := by
    refine ⟨fun hu => ⟨hu, fun ⟨_, w, h1, h2, _⟩ => by omega⟩, fun hu => hu.1⟩
  starved := rfl
  strayed := rfl

/-- Two adjacent ranges, one after the other. -/
theorem trans (h : Cleared a b m m') (h' : Cleared b c m' m'') (hab : a ≤ b) (hbc : b ≤ c)
    (hc : c ≤ 2 ^ 36) : Cleared a c m m'' where
  pml4 := h'.pml4.trans h.pml4
  node p := (h'.node p).trans (h.node p)
  cleared w h1 h2 hm := by
    by_cases hb : w < b
    · rw [h'.kept w (by omega) fun hin => by omega]
      exact h.cleared w h1 hb hm
    · exact h'.cleared w (by omega) h2 ((h.mapped (by omega) (by omega)).mpr hm)
  kept w hw hno := by
    have hfirst : pte m' w = pte m w := h.kept w hw fun hin => hno ⟨hin.1, by omega, hin.2.2⟩
    refine (h'.kept w hw fun hin => hno ⟨by omega, hin.2.1, ?_⟩).trans hfirst
    exact (h.mapped hw (by omega)).mp hin.2.2
  upper bit w := (h'.upper bit w).trans (h.upper bit w)
  mem f hf := by
    rw [h'.mem f fun ht => hf ((h.isTable f).mp ht), h.mem f hf]
  total := h'.total.trans h.total
  cursor := h'.cursor.trans h.cursor
  used f := by
    rw [h'.used, h.used, h.total]
    constructor
    · intro ⟨⟨hu, hno⟩, hno'⟩
      refine ⟨hu, fun ⟨hlt, w, h1, h2, hm, hf⟩ => ?_⟩
      by_cases hb : w < b
      · exact hno ⟨hlt, w, h1, hb, hm, hf⟩
      · refine hno' ⟨hlt, w, by omega, h2, (h.mapped (by omega) (by omega)).mpr hm, ?_⟩
        rw [h.kept w (by omega) fun hin => by omega]
        exact hf
    · intro ⟨hu, hno⟩
      refine ⟨⟨hu, fun ⟨hlt, w, h1, h2, hm, hf⟩ => hno ⟨hlt, w, h1, by omega, hm, hf⟩⟩, ?_⟩
      intro ⟨hlt, w, h1, h2, hm, hf⟩
      rw [h.kept w (by omega) fun hin => by omega] at hf
      exact hno ⟨hlt, w, by omega, h2, (h.mapped (by omega) (by omega)).mp hm, hf⟩
  starved := h'.starved.trans h.starved
  strayed := h'.strayed.trans h.strayed

end Cleared

/-- **One round of `vmm_unmap_range`.** -/
theorem cleared_page {m : Mach} (hT : tables.Tree m.mem m.pml4) {v : Nat} (hv : v < 2 ^ 36) :
    Cleared v (v + 1) m (unmapFrom (v * 4096) 3 m.pml4 m) := by
  -- a page without a present entry is passed over
  have hskip : ¬ Mapped4K m v → Cleared v (v + 1) m m := by
    intro hno
    have hat : ∀ {w : Nat}, v ≤ w → w < v + 1 → ¬ Mapped4K m w := by
      intro w h1 h2
      rw [show w = v by omega]
      exact hno
    have hbase := Cleared.refl v m
    refine
      { hbase with
        cleared := fun w h1 h2 hm => absurd hm (hat h1 h2)
        kept := fun _ _ _ => rfl
        used := fun f => ?_ }
    exact ⟨fun hu => ⟨hu, fun ⟨_, w, h1, h2, hm, _⟩ => hat h1 h2 hm⟩, fun hu => hu.1⟩
  cases h3 : m.node (path v 3) with
  | none =>
    rw [unmapFrom_none h3]
    refine hskip fun hm => ?_
    obtain ⟨t, ht⟩ := hm.1
    exact absurd (ht.symm.trans h3) (by simp)
  | some t =>
    rw [unmapFrom_table h3]
    have hpte := pte_of_table h3
    by_cases hp : present (m.mem t (pageIdx v 3))
    · rw [if_pos hp]
      have hmapped : Mapped4K m v := ⟨⟨t, h3⟩, by rw [hpte]; exact hp⟩
      obtain ⟨mf, hmf⟩ : ∃ mf,
        { m with pmm := pmmFreeFrame (m.mem t (pageIdx v 3) / 4096 * 4096) m.pmm } = mf :=
        ⟨_, rfl⟩
      have hTf : tables.Tree mf.mem mf.pml4 := by rw [← hmf]; exact hT
      have h3f : mf.node (path v 3) = some t := by rw [← hmf]; exact h3
      have hptef : ∀ w, pte mf w = pte m w := fun w => by rw [← hmf]; rfl
      rw [hmf]
      refine
        { pml4 := by rw [← hmf]; rfl
          node := fun p => (node_leaf hTf h3f _ _ p).trans (by rw [← hmf]; rfl)
          cleared := fun w h1 h2 _ => ?_
          kept := fun w hw hno => ?_
          upper := fun bit w => (upper_leaf hTf h3f _ _ bit w).trans (by rw [← hmf]; rfl)
          mem := fun f hf => ?_
          total := by rw [← hmf]; exact (pmmFreeFrame_total _ _).1
          cursor := by rw [← hmf]; exact (pmmFreeFrame_total _ _).2
          used := fun f => ?_
          starved := by rw [← hmf]; rfl
          strayed := by rw [← hmf]; rfl }
      · rw [pte_leaf hTf h3f 0 hv (by omega), if_pos (by omega)]
      · have hwv : w ≠ v := fun he => hno ⟨by omega, by omega, he ▸ hmapped⟩
        rw [pte_leaf hTf h3f 0 hv hw, if_neg hwv, hptef]
      · have hft : f ≠ t := fun he => hf ⟨_, by rw [he]; exact h3⟩
        rw [poke_frame _ _ _ hft, ← hmf]
      · have hpmm : mf.pmm = pmmFreeFrame (m.mem t (pageIdx v 3) / 4096 * 4096)
          m.pmm := by rw [← hmf]
        have hdiv : m.mem t (pageIdx v 3) / 4096 * 4096 / 4096 = m.mem t (pageIdx v 3) / 4096 := by
          omega
        rw [poke_pmm, hpmm, pmmFreeFrame_used_iff, hdiv]
        refine and_congr_right fun _ => not_congr ⟨fun ⟨hf, hlt⟩ => ?_,
          fun ⟨hlt, w, h1, h2, _, hf⟩ => ?_⟩
        · exact ⟨hlt, v, Nat.le_refl _, by omega, hmapped, by rw [hpte, hf]⟩
        · rw [show w = v by omega, hpte] at hf
          exact ⟨hf.symm, hlt⟩
    · rw [if_neg hp]
      refine hskip fun hm => ?_
      rw [Mapped4K, hpte] at hm
      exact hp hm.2

theorem unmapLoop_cleared : ∀ {n v : Nat} {m : Mach}, tables.Tree m.mem m.pml4 → v + n ≤ 2 ^ 36 →
    Cleared v (v + n) m (unmapLoop n (v * 4096) m)
  | 0, v, m, _, _ => Cleared.refl v m
  | n + 1, v, m, hT, hn => by
    have hpage := cleared_page hT (show v < 2 ^ 36 by omega)
    have hT' : tables.Tree (unmapFrom (v * 4096) 3 m.pml4 m).mem
        (unmapFrom (v * 4096) 3 m.pml4 m).pml4 :=
      fun p q f hp hq => hT p q f ((hpage.node p).symm.trans hp) ((hpage.node q).symm.trans hq)
    have hrest := @unmapLoop_cleared n (v + 1) _ hT' (by omega)
    rw [unmapLoop, show v * 4096 + 4096 = (v + 1) * 4096 by omega,
      show v + (n + 1) = v + 1 + n by omega]
    exact hpage.trans hrest (by omega) (by omega) (by omega)

end InaneOS.Mem
